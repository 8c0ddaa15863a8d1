import ArenaVariations.Proofs.Expansion.Explanation
import ArenaVariations.Proofs.Generation.Finished

/-!
# Settings of a document

The settings of a document stand in the arena configuration at its root, and splitting removes
them. Nothing keeps an author from writing settings into an arena configuration further below,
where they are read but not split off. Their label rules then fail when they are expanded, with an
error that blames the library.

For all other documents this cannot happen: the body is readable and holds no settings, so it
holds no label rule, expanding it does not fail, and what goes wrong later is a variation that
cannot be finished. The field of the settings does not come back in any variation.
-/

namespace ArenaVariations

namespace Node

/-- No arena configuration below the root has settings. -/
def SettingsAtRoot (n : Node) : Prop :=
  ∀ child ∈ n.children, ∀ m : Node, m.PartOf child → ¬ m.HasSettings

/-- The field of the settings is nowhere in a tree. -/
def LacksSettingsField (n : Node) : Prop :=
  ∀ kind id names children, (container (.record kind id names) children).PartOf n →
    metaField ∉ names

end Node

namespace Template

theorem rulesOf_map_labelRule (rules : List (LabelRule Node)) :
    rulesOf (rules.map .labelRule) = .ok rules := by
  induction rules with
  | nil => rfl
  | cons rule rules ih =>
    rw [List.map_cons, rulesOf, ih]
    rfl

theorem rulesOfSettings_settings (rules : List (LabelRule Node)) :
    rulesOfSettings (Node.settings rules) = .ok rules := by
  have found : (Node.settings rules).valueNamed? labelRulesKey =
      some (.sequence (rules.map .labelRule)) := rfl
  have made : rulesOfSettings (Node.settings rules) = rulesOf (rules.map .labelRule) := rfl
  rw [made, rulesOf_map_labelRule]

/-- A field of a record without one of its names is another field. -/
theorem zip_eraseIdx {κ : Type} (names : List κ) (children : List Node) (position : Nat) :
    (names.eraseIdx position).zip (children.eraseIdx position) =
      (names.zip children).eraseIdx position := by
  induction names generalizing children position with
  | nil => simp
  | cons name names ih =>
    cases children with
    | nil => simp
    | cons child children => cases position <;> simp [ih]

theorem not_mem_eraseIdx_of_idxOf? {names : List String} {name : String} {position : Nat}
    (distinct : names.Nodup) (found : names.idxOf? name = some position) :
    name ∉ names.eraseIdx position := by
  have erased := List.erase_eq_eraseIdx names name
  rw [found] at erased
  rw [← show names.erase name = names.eraseIdx position from erased]
  exact distinct.not_mem_erase

/-- The field of the settings of a readable arena configuration holds nothing but label rules. -/
theorem settings_at_root {id : Option String} {names : List String} {children : List Node}
    {position : Nat} (h : (Node.container (.record .arenaConfig id names) children).Readable)
    (found : names.idxOf? metaField = some position) :
    ∃ rules, children[position]? = some (Node.settings rules) := by
  cases h with
  | @record _ _ _ _ rules length _ _ _ settings =>
    obtain ⟨bound, here, -⟩ := List.idxOf?_eq_some_iff.mp found
    have below : position < children.length := length ▸ bound
    have field : (metaField, children[position]) ∈ names.zip children := by
      rw [← here]
      exact getElem_mem_zip bound below
    have held : children[position] = Node.settings rules := settings _ field ⟨rfl, rfl⟩
    exact ⟨rules, by rw [List.getElem?_eq_getElem below, held]⟩

/-- An arena configuration is split at the field of its settings. -/
theorem ofDocument_of_settings {id : Option String} {names : List String} {children : List Node}
    {position : Nat} {rules : List (LabelRule Node)}
    (found : names.idxOf? metaField = some position)
    (there : children[position]? = some (Node.settings rules)) :
    ofDocument (.container (.record .arenaConfig id names) children) =
      .ok ⟨.container (.record .arenaConfig id (names.eraseIdx position))
        (children.eraseIdx position), rules⟩ := by
  simp only [ofDocument, found, there, rulesOfSettings_settings]
  rfl

/-- Documents that can be read can be split. -/
theorem exists_ofDocument {document : Node} (h : document.Readable) :
    ∃ t, ofDocument document = .ok t := by
  have readable := h
  cases h with
  | @record kind id names children =>
    cases kind with
    | arena | item | vector3 | rgb => exact ⟨_, rfl⟩
    | arenaConfig =>
      cases found : names.idxOf? metaField with
      | none =>
        refine ⟨⟨.container (.record .arenaConfig id names) children, []⟩, ?_⟩
        simp only [ofDocument, found]
        rfl
      | some position =>
        obtain ⟨rules, there⟩ := settings_at_root readable found
        exact ⟨_, ofDocument_of_settings found there⟩
  | _ => exact ⟨_, rfl⟩

/-- The body of a split document is readable, and is no arena configuration with settings. -/
theorem readable_body {document : Node} {t : Template} (h : document.Readable)
    (split : ofDocument document = .ok t) :
    t.body.Readable ∧ ¬ t.body.HasSettings ∧
      ∀ child ∈ t.body.children, child ∈ document.children := by
  obtain ⟨none_here, same⟩ | ⟨id, names, children, position, rfl, found, body⟩ :=
    body_cases_of_ofDocument split
  · rw [same]
    refine ⟨h, ?_, fun child mem => mem⟩
    rintro ⟨id, names, children, rfl, mem⟩
    obtain ⟨position, found⟩ := Option.isSome_iff_exists.mp (List.isSome_idxOf?.mpr mem)
    have bound : position < names.length := (List.idxOf?_eq_some_iff.mp found).1
    cases h with
    | record length =>
      simp only [settingsPosition?, found, Option.filter_some, ← length, bound, decide_true,
        ↓reduceIte, reduceCtorEq] at none_here
  · rw [body]
    cases h with
    | @record _ _ _ _ rules length known distinct each settings cases checked =>
      have gone := not_mem_eraseIdx_of_idxOf? distinct found
      have no_rules : ∀ rule ∈ ([] : List (LabelRule Node)), ∀ n ∈ rule.condition.cases,
          n.Readable := List.forall_mem_nil _
      refine ⟨.record ?_ ?_ (distinct.eraseIdx _) ?_ ?_ no_rules (List.forall_mem_nil _), ?_, ?_⟩
      · simp only [List.length_eraseIdx, length]
      · exact fun name mem => known name (List.mem_of_mem_eraseIdx mem)
      · intro field mem holds
        rw [zip_eraseIdx] at mem
        exact each field (List.mem_of_mem_eraseIdx mem) holds
      · intro field mem holds
        exact absurd (holds.2 ▸ (List.of_mem_zip mem).1) gone
      · rintro ⟨id, others, children, same, mem⟩
        cases same
        exact gone mem
      · exact fun child mem => List.mem_of_mem_eraseIdx mem

/-- Splitting a document with settings at its root leaves no settings anywhere. -/
theorem body_without_settings {document : Node} {t : Template} (h : document.Readable)
    (atRoot : document.SettingsAtRoot) (split : ofDocument document = .ok t) :
    t.body.Readable ∧ ∀ m : Node, m.PartOf t.body → ¬ m.HasSettings := by
  obtain ⟨readable, unset, among⟩ := readable_body h split
  exact ⟨readable, Node.forall_partOf unset fun child mem => atRoot child (among child mem)⟩

end Template

namespace Node

/-- A record with the field of the settings is an arena configuration that has them. -/
theorem Readable.hasSettings_of_mem {kind : RecordKind} {id : Option String} {names : List String}
    {children : List Node} (h : (container (.record kind id names) children).Readable)
    (mem : metaField ∈ names) : (container (.record kind id names) children).HasSettings := by
  cases h with
  | record _ known =>
    have field := known metaField mem
    have only : kind = .arenaConfig := by
      revert field
      cases kind <;> decide
    exact ⟨id, names, children, by rw [only], mem⟩

/-- Variations of a tree without settings lack their field. -/
theorem StandsIn.lacksSettingsField {v n : Node} (h : v.StandsIn n) (readable : n.Readable)
    (unset : ∀ m : Node, m.PartOf n → ¬ m.HasSettings) : v.LacksSettingsField := by
  intro kind id names children part mem
  cases h _ part with
  | made made =>
    simp only [Form.made, List.mem_cons, reduceCtorEq, Form.record.injEq, List.not_mem_nil,
      or_false, false_or] at made
    obtain ⟨-, -, rfl⟩ | ⟨-, -, rfl⟩ := made <;> exact absurd mem (by decide)
  | @kept _ original part =>
    obtain here | ⟨-, k, inner, has⟩ := readable.traced _ part
    · exact unset _ part (here.hasSettings_of_mem mem)
    · exact unset k inner has

end Node

namespace Production

/-- A step fails only because a variation cannot be finished. -/
def Blameless (pull : Pull Variation) : Prop :=
  ∀ e, pull = .failed e → ∃ failure excerpt, e = .unresolved failure excerpt

section FailsOnly

variable {sort : Error → Prop} {p : Production}

/-- A raw step fails as samples and enumerations of the tree do. -/
theorem nextRaw_failsOnly (sampled : p.template.body.sample.FailsOnly sort)
    (advanced : ∀ cursor, (p.template.body.advance cursor).Always fun step =>
      step.1.FailsOnly sort) :
    p.nextRaw.Always fun step => step.1.FailsOnly sort := by
  cases mode : p.mode with
  | sample =>
    have drawn : p.nextRaw = (fun r => (.ofExcept r, p.cursor)) <$> p.template.body.sample.run := by
      simp only [nextRaw, mode, bind_pure_comp]
    rw [drawn, Draw.always_map]
    refine Draw.Always.mono sampled fun r fails => ?_
    cases r with
    | error e =>
      rintro _ ⟨⟩
      exact fails e rfl
    | ok v => rintro _ ⟨⟩
  | exhaustive =>
    have moved : p.nextRaw = p.template.body.advance p.cursor := by simp only [nextRaw, mode]
    exact moved ▸ advanced p.cursor

/-- A step fails as its raw step does, or because a variation cannot be finished. -/
theorem next_failsOnly (raw : p.nextRaw.Always fun step => step.1.FailsOnly sort)
    (unresolved : ∀ failure excerpt, sort (.unresolved failure excerpt)) (sound : p.Sound) :
    p.next.Always fun step => step.1.FailsOnly sort := by
  rw [next]
  split
  · rintro _ ⟨⟩
  · rw [Draw.always_bind]
    refine (raw.and (nextRaw_sound sound)).mono ?_
    rintro ⟨pull, cursor⟩ ⟨fails, -, stands⟩ e failed
    cases pull with
    | done => cases failed
    | failed e =>
      cases failed
      exact fails e rfl
    | item v =>
      have checked : ∀ c ∈ v.node.waiting, c.Checked := fun c waits =>
        (stands v rfl).checked sound.built waits
      have settled : v.settled p.template.rules = .error e := by
        cases result : v.settled p.template.rules <;> simp_all [Pull.bind, Pull.ofExcept]
      obtain ⟨failure, excerpt, rfl⟩ :=
        Variation.settled_failsUnresolved checked p.template.rules e settled
      exact unresolved failure excerpt

/-- So does a run. -/
theorem steps_failsOnly (sampled : p.template.body.sample.FailsOnly sort)
    (advanced : ∀ cursor, (p.template.body.advance cursor).Always fun step =>
      step.1.FailsOnly sort)
    (unresolved : ∀ failure excerpt, sort (.unresolved failure excerpt)) (sound : p.Sound)
    (amount : Nat) :
    (Draw.steps next amount p).Always fun r => ∀ pull ∈ r.1, pull.FailsOnly sort := by
  refine Draw.steps_always (fun q => q.Sound ∧ q.template = p.template) ?_ amount ⟨sound, rfl⟩
  rintro q ⟨sound, same⟩
  have raw : q.nextRaw.Always fun step => step.1.FailsOnly sort :=
    nextRaw_failsOnly (same ▸ sampled) (same ▸ advanced)
  refine ((next_sound sound).and (next_failsOnly raw unresolved sound)).mono fun step kept => ?_
  exact ⟨⟨kept.1.1, kept.1.2.1.trans same⟩, kept.2⟩

end FailsOnly

theorem steps_blameless {p : Production} (h : p.template.body.Expandable) (sound : p.Sound)
    (amount : Nat) : (Draw.steps next amount p).Always fun r => ∀ pull ∈ r.1, Blameless pull := by
  refine steps_failsOnly (h.sample_always_ok.mono ?_) (fun cursor => ?_)
    (fun failure excerpt => ⟨failure, excerpt, rfl⟩) sound amount
  · rintro _ ⟨v, rfl⟩ e ⟨⟩
  · exact (h.advance_unfailing cursor).mono fun step never e failed => (never e failed).elim

end Production

namespace Node

/-- A document whose settings are at its root is explained and split, and whatever is generated
from it fails only because a variation cannot be finished. No variation has the field of the
settings. -/
theorem generated_unfailing {text source : String} {document : Node}
    (parsed : Node.parse text source = .ok document) (atRoot : document.SettingsAtRoot) :
    (∃ explanation, document.explain = .ok explanation) ∧
      ∃ t, Template.ofDocument document = .ok t ∧ ∀ mode amount pulls,
        (Draw.steps Production.next pulls (.ofTemplate t mode amount)).Always fun r =>
          (∀ e, Pull.failed e ∈ r.1 → ∃ failure excerpt, e = .unresolved failure excerpt) ∧
            ∀ v, Pull.item v ∈ r.1 → v.node.LacksSettingsField := by
  have readable := readable_of_parse parsed
  obtain ⟨t, split⟩ := Template.exists_ofDocument readable
  obtain ⟨body, unset⟩ := Template.body_without_settings readable atRoot split
  refine ⟨exists_explain readable.freeOf_placeholder, t, split, fun mode amount pulls => ?_⟩
  have expandable : t.body.Expandable := by
    refine ⟨body.built, fun m part => ?_⟩
    have no_rule := body.freeOf_labelRule unset m part
    have no_placeholder := body.freeOf_placeholder m part
    simp_all
  have start := Production.sound_ofTemplate body.built mode amount
  have fails := Production.steps_blameless expandable start pulls
  have sound := Production.steps_sound start pulls
  refine (fails.and sound).mono ?_
  rintro r ⟨fails, sound⟩
  refine ⟨fun e mem => fails _ mem e rfl, fun v mem => ?_⟩
  exact (sound _ mem v rfl).1.lacksSettingsField body unset

/-- No part of a tree is an arena configuration with settings. -/
def LacksSettings (n : Node) : Prop :=
  ∀ m : Node, m.PartOf n → ¬ m.HasSettings

theorem lacksSettings_iff {n : Node} :
    n.LacksSettings ↔ ¬ n.HasSettings ∧ ∀ child ∈ n.children, child.LacksSettings := by
  constructor
  · intro lacks
    exact ⟨lacks n (.whole n), fun child mem m part => lacks m (.inside mem part)⟩
  · rintro ⟨root, below⟩
    exact forall_partOf root below

/-- What the wall is read as. -/
def readWall : Node :=
  .record .arenaConfig none [("arenas", Template.wallOfTwo),
    (metaField, settings [Template.wallRule]), ("canResetEpisode", .scalar (.bool true))]

theorem generated_unfailing_labelledWall :
    Node.parse Template.labelledWall "wall" = .ok readWall ∧ readWall.HasSettings ∧
      readWall.SettingsAtRoot ∧ ∃ t, Template.ofDocument readWall = .ok t ∧
        (Draw.steps Production.next 3 (.ofTemplate t .exhaustive 5)).Always fun r =>
          (∀ e, Pull.failed e ∈ r.1 → ∃ failure excerpt, e = .unresolved failure excerpt) ∧
            ∀ v, Pull.item v ∈ r.1 → v.node.LacksSettingsField := by
  have parsed : Node.parse Template.labelledWall "wall" = .ok readWall :=
    Template.parse_labelledWall
  have has : readWall.HasSettings := ⟨_, _, _, rfl, by decide⟩
  have atRoot : readWall.SettingsAtRoot := by
    change ∀ child ∈ readWall.children, child.LacksSettings
    simp [readWall, Template.wallOfTwo, Template.wallRule, record, settings, mapping, Node.text,
      children, HasSettings, lacksSettings_iff (n := .container _ _),
      lacksSettings_iff (n := .choice _), lacksSettings_iff (n := .scalar _),
      lacksSettings_iff (n := .labelRule _)]
  obtain ⟨-, t, split, generated⟩ := generated_unfailing parsed atRoot
  exact ⟨parsed, has, atRoot, t, split, generated .exhaustive 5 3⟩

/-- An arena configuration with a label rule, in a list. -/
def nestedSettings : String :=
  "[!ArenaConfig \x7bproc_meta: \x7bproc_labels: [!ProcIfLabels " ++
    "\x7bvariable: a, cases: [], labels: [], default: b\x7d]\x7d\x7d]"

/-- Settings below the root are read and not split off. Their label rules are expanded like
everything else, which ends with a failure that does not blame the template. -/
theorem generated_failing_nestedSettings :
    ∃ document t e, Node.parse nestedSettings "nested" = .ok document ∧
      Template.ofDocument document = .ok t ∧
      ((Draw.steps Production.next 1 (.ofTemplate t .exhaustive 1)).run (.ofSeed 1234)).1.1 =
        [.failed e] ∧ e.isUserFacing = false := by
  have computed : ((Node.parse nestedSettings "nested").toOption.bind fun document =>
      (Template.ofDocument document).toOption.map fun t =>
        ((Draw.steps Production.next 1 (.ofTemplate t .exhaustive 1)).run (.ofSeed 1234)).1.1.map
          fun
            | .failed e => e.isUserFacing
            | _ => true) = some [false] := by
    decide +kernel
  cases parsed : Node.parse nestedSettings "nested" with
  | error e => simp [parsed, Except.toOption] at computed
  | ok document =>
    cases split : Template.ofDocument document with
    | error e => simp [parsed, split, Except.toOption] at computed
    | ok t =>
      simp only [parsed, split, Except.toOption, Option.bind_some, Option.map_some,
        Option.some.injEq, List.map_eq_singleton_iff] at computed
      obtain ⟨pull, pulled, blame⟩ := computed
      cases pull with
      | failed e => exact ⟨document, t, e, rfl, split, pulled, blame⟩
      | done | item => cases blame

end Node

end ArenaVariations
