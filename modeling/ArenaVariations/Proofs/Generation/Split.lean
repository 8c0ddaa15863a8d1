import ArenaVariations.Proofs.Generation.Collected

/-!
# Splitting a document

A document is split into the tree to expand and its label rules by taking the field of its settings
out; everything else stays as it is and where it is. The settings hold no tag that counts, so the
document and its body have the same count and the same explanation. This is the number of
variations that the body is enumerated with, unless label rules stand below the root: these are not
taken out, and expansion fails on them.
-/

namespace ArenaVariations

open ArenaVariations.Random (Generator)

namespace Node

/-- A document without the field of its settings. All other fields stay, in their order. -/
def withoutSettings : Node → Node
  | container (.record .arenaConfig id names) children =>
    record .arenaConfig id ((names.zip children).filter fun field => field.1 ≠ metaField)
  | n => n

/-- A name that occurs once is filtered out by erasing its field. -/
theorem filter_zip_eq_eraseIdx {names : List String} {children : List Node} {name : String}
    {position : Nat} (distinct : names.Nodup) (found : names.idxOf? name = some position) :
    (names.zip children).filter (fun field => field.1 ≠ name) =
      (names.zip children).eraseIdx position := by
  induction names generalizing children position with
  | nil => cases found
  | cons head names ih =>
    obtain ⟨fresh, distinct⟩ := List.nodup_cons.mp distinct
    cases children with
    | nil => simp
    | cons child children =>
      rw [List.idxOf?_cons] at found
      rw [List.zip_cons_cons]
      by_cases here : head = name
      · subst here
        rw [if_pos (beq_self_eq_true head)] at found
        obtain rfl := Option.some.inj found
        rw [List.filter_cons_of_neg (by simp), List.eraseIdx_cons_zero, List.filter_eq_self]
        intro field mem
        have other : field.1 ≠ head := by
          rintro rfl
          exact fresh (List.of_mem_zip mem).1
        exact decide_eq_true other
      · rw [if_neg (by simpa using here)] at found
        obtain ⟨position, later, rfl⟩ := Option.map_eq_some_iff.mp found
        rw [List.filter_cons_of_pos (by simpa using here), List.eraseIdx_cons_succ,
          ih distinct later]

theorem record_zip {kind : RecordKind} {id : Option String} {names : List String}
    {children : List Node} (length : names.length = children.length) :
    record kind id (names.zip children) = container (.record kind id names) children := by
  rw [record, List.map_fst_zip (Nat.le_of_eq length), List.map_snd_zip (Nat.le_of_eq length.symm)]

/-- Without the field there is nothing to take out. -/
theorem withoutSettings_of_not_mem {id : Option String} {names : List String}
    {children : List Node} (length : names.length = children.length) (absent : metaField ∉ names) :
    (container (.record .arenaConfig id names) children).withoutSettings =
      container (.record .arenaConfig id names) children := by
  have all : (names.zip children).filter (fun field => field.1 ≠ metaField) =
      names.zip children := by
    rw [List.filter_eq_self]
    intro field mem
    have other : field.1 ≠ metaField := by
      intro same
      exact absent (same ▸ (List.of_mem_zip mem).1)
    exact decide_eq_true other
  rw [withoutSettings, all, record_zip length]

theorem withoutSettings_of_idxOf? {id : Option String} {names : List String}
    {children : List Node} {position : Nat} (length : names.length = children.length)
    (distinct : names.Nodup) (found : names.idxOf? metaField = some position) :
    (container (.record .arenaConfig id names) children).withoutSettings =
      container (.record .arenaConfig id (names.eraseIdx position))
        (children.eraseIdx position) := by
  have lengths : (names.eraseIdx position).length = (children.eraseIdx position).length := by
    simp only [List.length_eraseIdx, length]
  rw [withoutSettings, filter_zip_eq_eraseIdx distinct found, ← Template.zip_eraseIdx,
    record_zip lengths]

theorem lookup_of_not_mem {names : List String} {children : List Node} {name : String}
    (absent : name ∉ names) : lookup names children (· == name) = none := by
  have none_found : (names.zip children).find? (fun field => field.1 == name) = none := by
    rw [List.find?_eq_none]
    intro field mem same
    exact absent (beq_iff_eq.mp same ▸ (List.of_mem_zip mem).1)
  rw [lookup, none_found]
  rfl

end Node

namespace Template

/-- What a template has of a document: everything but the settings, and the rules of these. -/
structure TakenFrom (t : Template) (document : Node) : Prop where
  body_eq : t.body = document.withoutSettings
  /-- The rules stand in the settings in their order, and there are no rules without settings. -/
  rules_eq : document.field? metaField = some (Node.settings t.rules) ∨
    document.field? metaField = none ∧ t.rules = []

/-- Splitting takes the settings out, and nothing else. -/
theorem takenFrom_of_ofDocument {document : Node} (h : document.Readable) {t : Template}
    (split : ofDocument document = .ok t) : t.TakenFrom document := by
  have readable := h
  cases h with
  | @record kind id names children rules length known distinct =>
    by_cases here : metaField ∈ names
    · obtain rfl : kind = .arenaConfig := by
        have field := known metaField here
        revert field
        cases kind <;> decide
      obtain ⟨position, found⟩ := Option.isSome_iff_exists.mp (List.isSome_idxOf?.mpr here)
      obtain ⟨rules, there⟩ := settings_at_root readable found
      obtain rfl := Except.ok.inj ((ofDocument_of_settings found there).symm.trans split)
      refine ⟨(Node.withoutSettings_of_idxOf? length distinct found).symm, .inl ?_⟩
      obtain ⟨bound, name, -⟩ := List.idxOf?_eq_some_iff.mp found
      obtain ⟨below, held⟩ := List.getElem?_eq_some_iff.mp there
      have field : (metaField, Node.settings rules) ∈ names.zip children := by
        rw [← name, ← held]
        exact getElem_mem_zip bound below
      exact Node.lookup_of_mem distinct field
    · have unset : (Node.container (.record kind id names) children).withoutSettings =
          .container (.record kind id names) children := by
        cases kind with
        | arenaConfig => exact Node.withoutSettings_of_not_mem length here
        | arena | item | vector3 | rgb => rfl
      obtain rfl : t = ⟨.container (.record kind id names) children, []⟩ := by
        have none_here : names.idxOf? metaField = none := List.idxOf?_eq_none_iff.mpr here
        cases kind with
        | arenaConfig =>
          simp only [ofDocument, none_here] at split
          exact (Except.ok.inj split).symm
        | arena | item | vector3 | rgb => exact (Except.ok.inj split).symm
      exact ⟨unset.symm, .inr ⟨Node.lookup_of_not_mem here, rfl⟩⟩
  | _ =>
    obtain rfl := Except.ok.inj split
    exact ⟨rfl, .inr ⟨rfl, rfl⟩⟩

/-- The settings of a document are no part of its explanation. -/
theorem explain_body {document : Node} {t : Template} (h : document.Readable)
    (split : ofDocument document = .ok t) : t.body.explain = document.explain := by
  have body := Node.waiting_eq_nil_of_freeOf (readable_body h split).1.freeOf_placeholder
  have whole := Node.waiting_eq_nil_of_freeOf h.freeOf_placeholder
  rw [Node.explain, Node.breakdown_eq body, outerTags_body h split, ← Node.breakdown_eq whole,
    Node.explain]

/-- A production of an expandable body steps through so many variations as the body counts. -/
theorem run_pulls_exhaustive {t : Template} (h : t.body.Expandable) (g : Generator) :
    ∃ vs : List Variation, t.body.count = min countLimit vs.length ∧
      ∀ amount limit, amount ≤ limit →
        ((Draw.pulls Production.next amount (.ofTemplate t .exhaustive limit)).run g).1 =
          (vs.map (fun v : Variation => Pull.ofExcept (v.settled t.rules)) ++
            [Pull.done]).take amount := by
  obtain ⟨m, emits, counted⟩ := h.exists_emits_loops
  refine ⟨t.body.loops.items g, ?_, fun amount limit enough => ?_⟩
  · rw [Feed.length_items emits, counted]
  · have raw := (h.run_pulls amount g).trans (Feed.run_pulls emits amount g)
    rw [Production.pulls_exhaustive rfl enough, Draw.run_map]
    show List.map _ ((Draw.pulls Enumeration.next amount (.ofNode t.body)).run g).1 = _
    rw [raw, List.map_take, List.map_append, List.map_map]
    rfl

/-- Splitting a document does not change what is counted. It takes the settings of the root out and
leaves everything else; the count and the explanation of the body are those of the document. If no
label rule is left in the body, so many variations are enumerated as the document counts, up to the
limit of counts, and each of them is settled or reported as a failure. -/
theorem counts_as_split {text source : String} {document : Node}
    (parsed : Node.parse text source = .ok document) :
    ∃ t, ofDocument document = .ok t ∧ t.TakenFrom document ∧
      t.body.count = document.count ∧
      (∃ explanation, document.explain = .ok explanation ∧ t.body.explain = .ok explanation) ∧
      (t.body.FreeOf [.labelRule] → ∀ g : Generator, ∃ vs : List Variation,
        document.count = min (2 ^ 128 - 1) vs.length ∧ ∀ amount limit, amount ≤ limit →
          ((Draw.pulls Production.next amount (.ofTemplate t .exhaustive limit)).run g).1 =
            (vs.map (fun v : Variation => Pull.ofExcept (v.settled t.rules)) ++
              [Pull.done]).take amount) := by
  have readable := Node.readable_of_parse parsed
  obtain ⟨t, split⟩ := exists_ofDocument readable
  obtain ⟨explanation, explained⟩ := Node.exists_explain readable.freeOf_placeholder
  have counted := count_body readable split
  refine ⟨t, split, takenFrom_of_ofDocument readable split, counted,
    ⟨explanation, explained, (explain_body readable split).trans explained⟩, ?_⟩
  intro unruled g
  have body := (readable_body readable split).1
  have expandable : t.body.Expandable := by
    refine ⟨body.built, fun m part => ?_⟩
    have no_rule := unruled m part
    have no_placeholder := body.freeOf_placeholder m part
    simp_all
  obtain ⟨vs, whole, pulled⟩ := run_pulls_exhaustive expandable g
  refine ⟨vs, ?_, pulled⟩
  rw [← counted, whole, countLimit, Nat.pow_eq]

/-- Two variations are counted and enumerated, and the rule is kept. -/
theorem counts_as_split_labelledWall :
    ∃ document, Node.parse labelledWall "wall" = .ok document ∧ document.count = 2 ∧
      ∃ t, ofDocument document = .ok t ∧ t.TakenFrom document ∧ t.rules = [wallRule] ∧
        t.body.FreeOf [.labelRule] ∧ ∃ vs : List Variation, vs.length = 2 ∧
          ((Draw.pulls Production.next 3 (.ofTemplate t .exhaustive 3)).run (.ofSeed 1234)).1 =
            vs.map (fun v => Pull.ofExcept (v.settled t.rules)) ++ [Pull.done] := by
  obtain ⟨t, split, taken, -, -, enumerated⟩ := counts_as_split parse_labelledWall
  obtain rfl : t = ⟨.record .arenaConfig none [("arenas", wallOfTwo),
      ("canResetEpisode", .scalar (.bool true))], [wallRule]⟩ :=
    (Except.ok.inj split).symm
  have unruled : (Node.record .arenaConfig none [("arenas", wallOfTwo),
      ("canResetEpisode", .scalar (.bool true))]).FreeOf [.labelRule] := by
    simp [Node.record, wallOfTwo, Node.text, Node.children, Node.rule,
      Node.freeOf_iff (n := .container _ _), Node.freeOf_iff (n := .choice _),
      Node.freeOf_iff (n := .scalar _)]
  obtain ⟨vs, counted, pulled⟩ := enumerated unruled (.ofSeed 1234)
  have two : vs.length = 2 := by
    have whole : Node.count (.record .arenaConfig none [("arenas", wallOfTwo),
      (metaField, Node.settings [wallRule]), ("canResetEpisode", .scalar (.bool true))]) = 2 := by
      decide
    omega
  refine ⟨_, parse_labelledWall, by decide, _, split, taken, rfl, unruled, vs, two, ?_⟩
  rw [pulled 3 3 (Nat.le_refl 3), List.take_of_length_le (by simp [two])]

/-- A choice beside an arena configuration with a label rule. -/
def nestedBesideChoice : String :=
  "[!ProcList [1, 2], !ArenaConfig \x7bproc_meta: \x7bproc_labels: [!ProcIfLabels " ++
    "\x7bvariable: a, cases: [], labels: [], default: b\x7d]\x7d\x7d]"

/-- Settings below the root are not split off. Two variations are counted, and none is enumerated:
the generator is done after a failure that does not blame the template. -/
theorem counts_apart_nestedBesideChoice :
    ∃ document t e, Node.parse nestedBesideChoice "nested" = .ok document ∧
      ofDocument document = .ok t ∧ document.count = 2 ∧
      ((Draw.pulls Production.next 3 (.ofTemplate t .exhaustive 3)).run (.ofSeed 1234)).1 =
        [.failed e, .done] ∧ e.isUserFacing = false := by
  have computed : ((Node.parse nestedBesideChoice "nested").toOption.bind fun document =>
      (ofDocument document).toOption.map fun t => (document.count,
        ((Draw.pulls Production.next 3 (.ofTemplate t .exhaustive 3)).run (.ofSeed 1234)).1.map
          fun
            | .failed e => some e.isUserFacing
            | .done => none
            | .item _ => some true)) = some (2, [some false, none]) := by
    decide +kernel
  cases parsed : Node.parse nestedBesideChoice "nested" with
  | error e => simp [parsed, Except.toOption] at computed
  | ok document =>
    cases split : ofDocument document with
    | error e => simp [parsed, split, Except.toOption] at computed
    | ok t =>
      simp only [parsed, split, Except.toOption, Option.bind_some, Option.map_some,
        Option.some.injEq, Prod.mk.injEq, List.map_eq_cons_iff] at computed
      obtain ⟨counted, first, rest, pulled, blame, last, others, rfl, ended, none_left⟩ := computed
      obtain rfl := List.map_eq_nil_iff.mp none_left
      cases first with
      | failed e =>
        cases last with
        | done => exact ⟨document, t, e, rfl, split, counted, pulled, Option.some.inj blame⟩
        | failed | item => cases ended
      | done | item => cases blame

end Template

end ArenaVariations
