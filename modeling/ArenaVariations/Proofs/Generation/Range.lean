import ArenaVariations.Proofs.Generation.Split

/-!
# Everything that is picked is there

Expansion picks one of the alternatives of a tag, and settling picks the value and the label of the
case that it has found. In a well-formed document there is always something to pick: a tag lists as
many alternatives as it says and at least one, and a case that is found has its value and its label.
So no choice is ever made among nothing, wherever a cursor stands and whatever is drawn.
-/

namespace ArenaVariations

/-- What a condition finds is one of its cases. -/
theorem Condition.index_lt {root : Node} {force : Conditional Node → Except Error Node}
    {c : Condition Node} {r : Resolution} {i : Nat} (resolved : c.resolveWith root force = .ok r)
    (found : r.index = some i) : i < c.cases.length := by
  obtain ⟨values, -, made⟩ := bind_eq_ok.mp resolved
  obtain rfl := pure_eq_ok.mp made
  exact (List.findIdx?_eq_some_iff_findIdx_eq.mp found).1

/-- Every case has a value for each reference. -/
def Condition.InRange (c : Condition Node) : Prop :=
  ∀ case ∈ c.cases, ∀ k < c.references.length, ∃ value, (Condition.values case)[k]? = some value

/-- A case that is found has a value, and a label if there are labels. -/
structure Conditional.InRange (c : Conditional Node) : Prop where
  condition : c.condition.InRange
  found : ∀ root force r i, c.condition.resolveWith root force = .ok r → r.index = some i →
    (∃ value, c.outcomes[i]? = some value) ∧ ∀ labels ∈ c.labels, ∃ label, labels[i]? = some label

/-- A case that is found has a label. -/
structure LabelRule.InRange (rule : LabelRule Node) : Prop where
  condition : rule.condition.InRange
  found : ∀ root force r i, rule.condition.resolveWith root force = .ok r → r.index = some i →
    ∃ label, rule.labels[i]? = some label

theorem Condition.WellFormed.inRange {c : Condition Node} (h : c.WellFormed) : c.InRange := by
  intro case mem k bound
  rw [← (h.cases case mem).2] at bound
  exact ⟨_, List.getElem?_eq_getElem bound⟩

theorem Conditional.WellFormed.inRange {c : Conditional Node} (h : c.WellFormed) : c.InRange where
  condition := h.condition.inRange
  found _ _ _ _ resolved found := by
    have bound := Condition.index_lt resolved found
    refine ⟨⟨_, List.getElem?_eq_getElem (h.outcomes ▸ bound)⟩, fun labels mem => ?_⟩
    exact ⟨_, List.getElem?_eq_getElem (h.labels labels mem ▸ bound)⟩

theorem LabelRule.WellFormed.inRange {rule : LabelRule Node} (h : rule.WellFormed) :
    rule.InRange where
  condition := h.condition.inRange
  found _ _ _ _ resolved found :=
    ⟨_, List.getElem?_eq_getElem (h.labels ▸ Condition.index_lt resolved found)⟩

namespace Drawing

variable {sort : Error → Prop} {α β : Type}

theorem failsOnly_pure (a : α) : (pure a : Drawing α).FailsOnly sort :=
  nofun

theorem failsOnly_throw {e : Error} (h : sort e) : (throw e : Drawing α).FailsOnly sort := by
  rintro _ ⟨⟩
  exact h

theorem failsOnly_lift (d : Draw α) : FailsOnly sort (ExceptT.lift d : Drawing α) := by
  have lifted : (ExceptT.lift d : Drawing α).run = Except.ok <$> d := ExceptT.run_lift d
  rw [FailsOnly, lifted, Draw.always_map]
  exact .of_forall (fun a => nofun) d

theorem FailsOnly.bind {d : Drawing α} {f : α → Drawing β} (h : d.FailsOnly sort)
    (next : ∀ a, (f a).FailsOnly sort) : (d >>= f).FailsOnly sort := by
  rw [FailsOnly, ExceptT.run_bind, Draw.always_bind]
  refine Draw.Always.mono h fun r fails => ?_
  cases r with
  | error e =>
    rintro _ ⟨⟩
    exact fails e rfl
  | ok a => exact next a

/-- One of some members can be drawn. -/
theorem failsOnly_oneOf {as : List α} (some_member : as ≠ []) :
    (oneOf as).FailsOnly sort := by
  obtain ⟨first, rest, rfl⟩ := List.exists_cons_of_ne_nil some_member
  exact failsOnly_lift _

end Drawing

namespace Node

theorem sampleAll_failsOnly {sort : Error → Prop} {ns : List Node}
    (each : ∀ n ∈ ns, n.sample.FailsOnly sort) : (sampleAll ns).FailsOnly sort := by
  induction ns with
  | nil => exact Drawing.failsOnly_pure _
  | cons n ns ih =>
    obtain ⟨first, rest⟩ := List.forall_mem_cons.mp each
    exact first.bind fun v => (ih rest).bind fun vs => Drawing.failsOnly_pure _

/-- Not an error of a choice among nothing. -/
def HasChoice (e : Error) : Prop :=
  e ≠ .internal .emptyChoice

/-- A sample of a built tree chooses among something. -/
theorem Built.sample_hasChoice {n : Node} (h : n.Built) : n.sample.FailsOnly HasChoice := by
  induction n using expansion_induction with
  | single n single =>
    rw [single.sample_eq]
    exact Drawing.failsOnly_pure _
  | lists n lists =>
    rw [lists.sample_eq]
    exact Drawing.failsOnly_oneOf (lists.alternatives_ne_nil h)
  | container form children ih =>
    cases h with
    | container _ built =>
      exact (sampleAll_failsOnly fun n mem => ih n mem (built n mem)).bind
        fun vs => Drawing.failsOnly_pure _
  | repetition amount value ih =>
    cases h with
    | repetition _ built => exact (ih built).bind fun v => Drawing.failsOnly_pure _
  | restriction amount item ih =>
    cases h with
    | restriction _ built => exact ih built
  | labelRule | placeholder => exact Drawing.failsOnly_throw nofun

/-- So does every step of its enumeration. -/
theorem Built.advance_hasChoice {n : Node} (h : n.Built) :
    ∀ cursor, (n.advance cursor).Always fun step => step.1.FailsOnly HasChoice := by
  induction n using expansion_induction with
  | single n single => exact single.advance_failsOnly
  | lists n lists => exact lists.advance_failsOnly
  | container form children ih =>
    cases h with
    | container _ built =>
      exact advance_container_failsOnly (fun n mem => ih n mem (built n mem)) form
  | repetition amount value ih =>
    cases h with
    | repetition _ built => exact advance_repetition_failsOnly (ih built) amount
  | restriction amount item _ =>
    cases h with
    | restriction _ built => exact advance_restriction_failsOnly built.sample_hasChoice amount
  | labelRule | placeholder =>
    intro cursor
    cases cursor with
    | fresh =>
      rintro _ ⟨⟩
      exact nofun
    | behind | within | finished => exact nofun

/-- How many alternatives a tag says that it lists. -/
def declared : Node → Nat
  | choice options => options.length
  | labelledChoice options => options.length
  | palette amount => amount.toNat
  | scaled _ scales _ => scales.length
  | _ => 0

/-- Whatever is picked from a node is there. -/
structure InRange (n : Node) : Prop where
  /-- A tag that lists alternatives lists all that it says, and there is one. -/
  listed : n.Lists → 0 < n.alternatives.length ∧ n.alternatives.length = n.declared
  /-- Every factor is a number, and has a label if there are labels. -/
  factors : ∀ base scales labels, n = scaled base scales labels → ∀ i < scales.length,
    ∃ s, scales[i]? = some s ∧ s.isNumeric = true ∧
      ∀ ls ∈ labels, ∃ label, ls[i]? = some label
  conditional : ∀ source, n = conditional source → source.InRange
  labelRule : ∀ rule, n = labelRule rule → rule.InRange
  /-- No sample chooses among nothing, and no step of an enumeration does. -/
  sampled : n.sample.FailsOnly HasChoice
  advanced : ∀ cursor, (n.advance cursor).Always fun step => step.1.FailsOnly HasChoice

/-- A well-formed tag lists as many alternatives as it says. -/
theorem WellFormed.length_alternatives {n : Node} (h : n.WellFormed) (lists : n.Lists) :
    n.alternatives.length = n.declared := by
  cases lists with
  | choice | labelledChoice => simp [alternatives, declared]
  | scaled => simp [alternatives, declared, labelledScales]
  | palette amount =>
    have enough : amount.toNat ≤ colors.length := h.2
    simp [alternatives, declared, enough]

theorem WellFormed.inRange {n : Node} (h : n.WellFormed) (built : n.Built) : n.InRange where
  listed lists :=
    ⟨List.length_pos_iff.mpr (lists.alternatives_ne_nil built), h.length_alternatives lists⟩
  factors base scales labels same i bound := by
    subst same
    obtain ⟨-, numeric, labelled, -⟩ := h
    refine ⟨scales[i], List.getElem?_eq_getElem bound, numeric _ (List.getElem_mem bound), ?_⟩
    intro ls mem
    exact ⟨_, List.getElem?_eq_getElem (labelled ls mem ▸ bound)⟩
  conditional source same := by
    subst same
    exact Conditional.WellFormed.inRange h
  labelRule rule same := by
    subst same
    exact LabelRule.WellFormed.inRange h
  sampled := built.sample_hasChoice
  advanced := built.advance_hasChoice

end Node

namespace Template

/-- The conditionals of a body are conditionals of the document. -/
theorem conditional_partOf {document : Node} {t : Template} (split : ofDocument document = .ok t)
    {c : Conditional Node} (part : (Node.conditional c).PartOf t.body) :
    (Node.conditional c).PartOf document := by
  obtain ⟨-, same⟩ | ⟨id, names, children, position, rfl, -, body⟩ :=
    body_cases_of_ofDocument split
  · exact same ▸ part
  · rw [body] at part
    obtain other | ⟨child, mem, part⟩ := Node.partOf_container.mp part
    · cases other
    · exact .inside (List.mem_of_mem_eraseIdx mem) part

/-- The rules of a template are label rules of the document. -/
theorem TakenFrom.rule_partOf {t : Template} {document : Node} (h : t.TakenFrom document)
    {rule : LabelRule Node} (mem : rule ∈ t.rules) : (Node.labelRule rule).PartOf document := by
  have inside : (Node.labelRule rule).PartOf (Node.settings t.rules) := by
    refine .inside (List.mem_singleton_self _) (.inside ?_ (.whole _))
    exact List.mem_map_of_mem mem
  obtain given | ⟨-, none_given⟩ := h.rules_eq
  · unfold Node.field? at given
    split at given
    · exact .inside (Node.mem_of_lookup_eq_some given) inside
    · cases given
  · rw [none_given] at mem
    exact absurd mem List.not_mem_nil

end Template

namespace Node

/-- Every document is well formed at every depth, and whatever is picked from it is there. Label
rules stand in the settings of arena configurations only. Of what is decided later, the rules of
the template are rules of the document, and the conditionals that wait in anything that expansion
hands out are conditionals of the document. No generation chooses among nothing. -/
theorem parse_wellFormed {text source : String} {document : Node}
    (parsed : Node.parse text source = .ok document) :
    (∀ m : Node, m.PartOf document → m.WellFormed ∧ m.InRange) ∧
      (∀ rule, ¬ (Node.labelRule rule).OutsideSettings document) ∧
      ∃ t, Template.ofDocument document = .ok t ∧
        (∀ rule ∈ t.rules, (Node.labelRule rule).PartOf document) ∧
        (∀ raw, t.body.Yields raw → ∀ c ∈ raw.waiting, (Node.conditional c).PartOf document) ∧
        ∀ mode amount pulls,
          (Draw.steps Production.next pulls (.ofTemplate t mode amount)).Always fun r =>
            ∀ pull ∈ r.1, pull ≠ .failed (.internal .emptyChoice) := by
  have readable := readable_of_parse parsed
  obtain ⟨t, split⟩ := Template.exists_ofDocument readable
  have taken := Template.takenFrom_of_ofDocument readable split
  have body : t.body.Built := Template.built_body readable.built split
  refine ⟨fun m part => ?_, readable.labelRule_not_outside, t, split,
    fun rule mem => taken.rule_partOf mem, fun raw yields c waits => ?_,
    fun mode amount pulls => ?_⟩
  · have wellFormed := readable.wellFormed_of_partOf part
    exact ⟨wellFormed, wellFormed.inRange (readable.built.of_partOf part)⟩
  · exact Template.conditional_partOf split ((yields.standsIn body).conditional_partOf waits)
  · refine (Production.steps_failsOnly body.sample_hasChoice body.advance_hasChoice ?_
      (Production.sound_ofTemplate body mode amount) pulls).mono fun r each pull mem failed => ?_
    · exact fun failure excerpt => nofun
    · exact each pull mem _ failed rfl

/-- The rule of the wall is one of the document's, and its only case has a label. -/
theorem parse_wellFormed_labelledWall :
    ∃ document, Node.parse Template.labelledWall "wall" = .ok document ∧
      (Node.labelRule Template.wallRule).PartOf document ∧ Template.wallRule.InRange ∧
      ∃ t, Template.ofDocument document = .ok t ∧
        (Draw.steps Production.next 3 (.ofTemplate t .sample 3)).Always fun r =>
          ∀ pull ∈ r.1, pull ≠ .failed (.internal .emptyChoice) := by
  obtain ⟨each, -, t, split, rules, -, chosen⟩ := parse_wellFormed Template.parse_labelledWall
  have taken : t.rules = [Template.wallRule] := by
    cases split
    rfl
  have part := rules Template.wallRule (by rw [taken]; exact List.mem_singleton_self _)
  have inRange := (each _ part).2.labelRule _ rfl
  exact ⟨_, Template.parse_labelledWall, part, inRange, t, split, chosen .sample 3 3⟩

end Node

end ArenaVariations
