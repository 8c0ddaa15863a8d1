import ArenaVariations.Proofs.Generation.Settings
import ArenaVariations.Proofs.Template.WellFormed

/-!
# Trees that a variation was handed out from

A tree that hands out a variation can be expanded as a whole: expansion goes through everything
that is not copied as it is, and it gets past a label rule or a placeholder nowhere. If nothing is
handed out, and nothing fails either, the tree counts nothing. So as long as no step fails, the
count of a document tells how many variations it has, whether its settings are all at its root or
not.
-/

namespace ArenaVariations

namespace Node

/-- The fields of a vector with components are numbers. -/
theorem Readable.isStatic_of_components? {b : Node} (h : b.Readable)
    (components : b.components?.isSome = true) : b.isStatic = true := by
  obtain ⟨⟨id, names, children, rfl⟩, axes⟩ := isNumericVector_of_components? components
  cases h with
  | record length known distinct =>
    rw [isStatic, allStatic_iff]
    refine forall_mem_zip_snd length fun field mem => ?_
    obtain ⟨s, found, -⟩ := axes field.1 (known field.1 (List.of_mem_zip mem).1)
    have here : some field.2 = some (Node.scalar s) := (lookup_of_mem distinct mem).symm.trans found
    rw [Option.some.inj here]
    rfl

theorem not_yields_labelRule {rule : LabelRule Node} {v : Node} : ¬ Yields (labelRule rule) v := by
  generalize same : labelRule rule = n
  intro yields
  cases yields with
  | single single => cases single <;> cases same
  | listed lists => cases lists <;> cases same
  | container | repetition | restriction => cases same

/-- Every child of a container that becomes something does so. -/
theorem exists_yields_of_container {form : Form} {children : List Node} {v : Node}
    (yields : Yields (container form children) v) : ∀ n ∈ children, ∃ w, Yields n w := by
  generalize same : container form children = k at yields
  cases yields with
  | single single => cases single <;> cases same
  | listed lists => cases lists <;> cases same
  | repetition | restriction => cases same
  | @container _ _ parts length each =>
    cases same
    intro n mem
    obtain ⟨i, bound, rfl⟩ := List.getElem_of_mem mem
    exact ⟨_, each (getElem_mem_zip bound (length ▸ bound))⟩

/-- Settings become something only if they have no label rules. -/
theorem freeOf_settings {rules : List (LabelRule Node)} {v : Node}
    (yields : Yields (settings rules) v) :
    (settings rules).FreeOf [.labelRule, .placeholder] := by
  obtain ⟨w, inner⟩ := exists_yields_of_container yields _ List.mem_cons_self
  cases rules with
  | nil => exact freeOf_of_isStatic rfl
  | cons rule rules =>
    obtain ⟨u, innermost⟩ := exists_yields_of_container inner _ List.mem_cons_self
    exact absurd innermost not_yields_labelRule

/-- A tag whose parts are static holds neither label rules nor placeholders below it. -/
theorem freeOf_of_static {n : Node} (root : n.rule ∉ [Rule.labelRule, .placeholder])
    (static : ∀ child ∈ n.children, child.isStatic = true) :
    n.FreeOf [.labelRule, .placeholder] :=
  freeOf_iff.mpr ⟨root, fun child mem => freeOf_of_isStatic (static child mem)⟩

theorem freeOf_container {form : Form} {children : List Node}
    (each : ∀ child ∈ children, child.FreeOf [.labelRule, .placeholder]) :
    (container form children).FreeOf [.labelRule, .placeholder] := by
  rw [freeOf_iff]
  exact ⟨by cases form <;> simp [rule], each⟩

/-- The parts of a readable vector with scales are static: its base has components. -/
theorem isStatic_of_scaled {base : Option Node} {scales : List Scalar}
    {labels : Option (List String)} (each : ∀ b ∈ base, b.Readable)
    (checked : scaledOf base (scales.map .scalar) labels = .ok (.scaled base scales labels)) :
    ∀ n ∈ (scaled base scales labels).children, n.isStatic = true := by
  obtain ⟨-, -, -, -, -, based, -⟩ := scaledOf_eq_ok.mp checked
  intro n mem
  obtain mem | mem := List.mem_append.mp mem
  · have given := Option.mem_toList.mp mem
    exact (each n given).isStatic_of_components? (based n given)
  · obtain ⟨s, -, rfl⟩ := List.mem_map.mp mem
    rfl

/-- A readable tree that can become something holds neither label rules nor placeholders. -/
theorem Readable.freeOf_of_yields {n : Node} (h : n.Readable) :
    ∀ v, Yields n v → n.FreeOf [.labelRule, .placeholder] := by
  induction h with
  | scalar | interval | tagged => exact fun _ _ => freeOf_of_isStatic rfl
  | sequence each ih | mapping length each ih =>
    intro v yields
    refine freeOf_container fun n mem => ?_
    obtain ⟨w, inner⟩ := exists_yields_of_container yields n mem
    exact ih n mem w inner
  | @record kind id names children rules length known distinct each settings cases checked ih =>
    intro v yields
    have inner := exists_yields_of_container yields
    refine freeOf_container (forall_mem_zip_snd length fun field mem => ?_)
    obtain ⟨w, yields⟩ := inner field.2 (List.of_mem_zip mem).2
    by_cases holds : HoldsSettings kind field.1
    · rw [settings field mem holds] at yields ⊢
      exact freeOf_settings yields
    · exact ih field mem holds w yields
  | choice each checked =>
    exact fun _ _ => freeOf_of_static (by simp [rule]) (choiceOf_eq_ok.mp checked).2.1
  | labelledChoice each checked =>
    refine fun _ _ => freeOf_of_static (by simp [rule]) fun n mem => ?_
    obtain ⟨option, among, rfl⟩ := List.mem_map.mp mem
    exact (labelledChoiceOf_eq_ok.mp checked).2.1 option among
  | palette =>
    exact fun _ _ => freeOf_of_static (by simp [rule]) (List.forall_mem_singleton.mpr rfl)
  | scaled each checked =>
    exact fun _ _ => freeOf_of_static (by simp [rule]) (isStatic_of_scaled each checked)
  | repetition amount each ih =>
    intro v yields
    rw [freeOf_iff]
    refine ⟨by simp [rule], List.forall_mem_cons.mpr ⟨freeOf_of_isStatic rfl, ?_⟩⟩
    rw [List.forall_mem_singleton]
    cases yields with
    | single single => cases single
    | listed lists => cases lists
    | repetition _ inner => exact ih _ inner
  | restriction amount each ih =>
    intro v yields
    rw [freeOf_iff]
    refine ⟨by simp [rule], List.forall_mem_cons.mpr ⟨freeOf_of_isStatic rfl, ?_⟩⟩
    rw [List.forall_mem_singleton]
    cases yields with
    | single single => cases single
    | listed lists => cases lists
    | restriction _ inner => exact ih _ inner
  | conditional each checked =>
    obtain ⟨-, -, static, -⟩ := Conditional.ofParts_eq_ok.mp checked.2
    obtain ⟨-, cases, -⟩ := Condition.ofParts_eq_ok.mp checked.1
    refine fun _ _ => freeOf_of_static (by simp [rule]) fun n mem => ?_
    rw [children, List.append_assoc] at mem
    obtain among | among := List.mem_append.mp mem
    · exact (cases n among).1
    · exact static n among

theorem Readable.expandable_of_yields {n v : Node} (h : n.Readable) (yields : Yields n v) :
    n.Expandable :=
  ⟨h.built, h.freeOf_of_yields v yields⟩

/-- Trees are started one after the other, and the turn ends with the first one that has nothing. -/
theorem startAll_nothing {ns : List Node}
    (each : ∀ n ∈ ns, (n.advance .fresh).Always fun p => p.1 = .done → n.count = 0) :
    (startAll ns).Always fun turn =>
      turn ≠ .exhausted ∧ (turn = .stopped → ∃ n ∈ ns, n.count = 0) := by
  induction ns with
  | nil =>
    constructor <;> rintro ⟨⟩
  | cons n ns ih =>
    obtain ⟨first, rest⟩ := List.forall_mem_cons.mp each
    rw [startAll_cons, Draw.always_bind]
    refine first.mono ?_
    rintro ⟨pull, cursor⟩ nothing
    cases pull with
    | done =>
      constructor
      · rintro ⟨⟩
      · intro _
        exact ⟨n, List.mem_cons_self, nothing rfl⟩
    | failed e =>
      constructor <;> rintro ⟨⟩
    | item v =>
      rw [restartAll, Draw.always_map]
      refine (ih rest).mono fun turn later => ?_
      cases turn with
      | moved | failed => constructor <;> rintro ⟨⟩
      | exhausted => exact absurd rfl later.1
      | stopped =>
        constructor
        · rintro ⟨⟩
        · intro _
          obtain ⟨k, mem, zero⟩ := later.2 rfl
          exact ⟨k, List.mem_cons_of_mem n mem, zero⟩

/-- A tree whose enumeration is done at once counts nothing. -/
theorem Built.count_eq_zero_of_done {n : Node} (h : n.Built) :
    (n.advance .fresh).Always fun p => p.1 = .done → n.count = 0 := by
  have listed : ∀ m : Node, m.Built → m.Lists →
      (m.advance .fresh).Always fun p => p.1 = .done → m.count = 0 := by
    intro m built lists
    obtain ⟨first, rest, split⟩ := List.exists_cons_of_ne_nil (lists.alternatives_ne_nil built)
    rw [lists.advance_eq (by rintro ⟨⟩), split]
    rintro ⟨⟩
  induction h with
  | scalar | interval | tagged | conditional | labelRule | placeholder => rintro ⟨⟩
  | choice each checked => exact listed _ (.choice each checked) (.choice _)
  | labelledChoice each checked =>
    exact listed _ (.labelledChoice each checked) (.labelledChoice _)
  | palette checked => exact listed _ (.palette checked) (.palette _)
  | scaled each checked => exact listed _ (.scaled each checked) (.scaled ..)
  | container fits each ih =>
    rw [advance_container_fresh, Draw.always_map]
    refine (startAll_nothing ih).mono ?_
    rintro turn ⟨unexhausted, stopped⟩ done
    cases turn with
    | moved | failed => cases done
    | exhausted => exact absurd rfl unexhausted
    | stopped => exact countAll_eq_zero_iff.mpr (.inr (stopped rfl))
  | repetition amount each ih =>
    rw [advance_repetition, Draw.always_map]
    refine ih.mono ?_
    rintro ⟨pull, cursor⟩ nothing done
    cases pull with
    | done => exact nothing rfl
    | failed | item => cases done
  | @restriction amount item each =>
    rw [advance_restriction amount item (by rintro ⟨⟩)]
    split
    · rw [Draw.always_map]
      refine .of_forall (fun r => ?_) _
      cases r <;> rintro ⟨⟩
    · next none_left =>
      intro _
      have zero : amount.toNat = 0 := Nat.eq_zero_of_not_pos none_left
      exact zero

/-- Label rules bring no variations. -/
theorem outerTags_settings (rules : List (LabelRule Node)) : (settings rules).outerTags = [] := by
  have no_tags : outerTagsIn (rules.map Node.labelRule) = [] := by
    rw [outerTagsIn_eq_flatMap, List.flatMap_eq_nil_iff]
    intro n mem
    obtain ⟨rule, -, rfl⟩ := List.mem_map.mp mem
    rfl
  show outerTagsIn (rules.map Node.labelRule) ++ [] = []
  rw [no_tags, List.nil_append]

/-- A tree without tags may be left out. -/
theorem outerTagsIn_eraseIdx {ns : List Node} {position : Nat} {n : Node}
    (there : ns[position]? = some n) (no_tags : n.outerTags = []) :
    outerTagsIn (ns.eraseIdx position) = outerTagsIn ns := by
  induction ns generalizing position with
  | nil => cases there
  | cons m ns ih =>
    cases position with
    | zero =>
      obtain rfl := Option.some.inj there
      rw [List.eraseIdx_cons_zero, outerTagsIn, no_tags, List.nil_append]
    | succ position => rw [List.eraseIdx_cons_succ, outerTagsIn, outerTagsIn, ih there]

end Node

namespace Template

/-- The body of a document has the tags of the document. -/
theorem outerTags_body {document : Node} {t : Template} (h : document.Readable)
    (split : ofDocument document = .ok t) : t.body.outerTags = document.outerTags := by
  obtain ⟨-, same⟩ | ⟨id, names, children, position, rfl, found, body⟩ :=
    body_cases_of_ofDocument split
  · rw [same]
  · obtain ⟨rules, there⟩ := settings_at_root h found
    rw [body]
    exact Node.outerTagsIn_eraseIdx there (Node.outerTags_settings rules)

/-- The settings of a document do not count. -/
theorem count_body {document : Node} {t : Template} (h : document.Readable)
    (split : ofDocument document = .ok t) : t.body.count = document.count := by
  rw [t.body.count_eq_prod, outerTags_body h split, ← document.count_eq_prod]

end Template

end ArenaVariations
