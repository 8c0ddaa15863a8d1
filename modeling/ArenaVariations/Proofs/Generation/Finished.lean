import ArenaVariations.Generation
import ArenaVariations.Proofs.Expansion.Origin
import ArenaVariations.Proofs.Template.Reading

/-!
# Finished variations are concrete

Whatever a production hands out holds neither procedural tags nor placeholders, and can be
written. The cursor of a production holds variations of its template's parts, so the invariant of
a run is that the cursor fits the body. A step keeps it, and what a step hands out stands in the
body but for placeholders, all of which are filled in.
-/

namespace ArenaVariations

namespace Draw

variable {σ α : Type} {next : σ → Draw (Pull α × σ)} {holds : Pull α → Prop}

/-- What every step from a state with an invariant gives, and keeps the invariant, holds of all
steps of a run. -/
theorem steps_always (invariant : σ → Prop)
    (step : ∀ s, invariant s → (next s).Always fun r => invariant r.2 ∧ holds r.1)
    (amount : Nat) {s : σ} (start : invariant s) :
    (steps next amount s).Always fun r => ∀ pull ∈ r.1, holds pull := by
  induction amount generalizing s with
  | zero => exact nofun
  | succ amount ih =>
    rw [steps, always_bind]
    refine (step s start).mono ?_
    rintro ⟨pull, t⟩ ⟨kept, here⟩
    cases pull with
    | done => exact List.forall_mem_singleton.mpr here
    | failed | item =>
      rw [always_bind]
      exact (ih kept).mono fun r rest => List.forall_mem_cons.mpr ⟨here, rest⟩

end Draw

namespace Template

/-- The place of the settings among the children of a document. -/
def settingsPosition? : Node → Option Nat
  | .container (.record .arenaConfig _ names) children =>
    (names.idxOf? metaField).filter (· < children.length)
  | _ => none

/-- A split document is the document itself if it has no settings, and otherwise an arena
configuration without them. -/
theorem body_cases_of_ofDocument {document : Node} {t : Template}
    (h : ofDocument document = .ok t) :
    settingsPosition? document = none ∧ t.body = document ∨ ∃ id names children position,
      document = .container (.record .arenaConfig id names) children ∧
        names.idxOf? metaField = some position ∧
        t.body = .container (.record .arenaConfig id (names.eraseIdx position))
          (children.eraseIdx position) := by
  unfold ofDocument at h
  split at h
  case h_2 other =>
    cases h
    refine .inl ⟨?_, rfl⟩
    unfold settingsPosition?
    split
    · exact (other _ _ _ rfl).elim
    · rfl
  case h_1 id names children =>
    cases found : names.idxOf? metaField with
    | none =>
      rw [found] at h
      cases h
      exact .inl ⟨by simp [settingsPosition?, found], rfl⟩
    | some position =>
      rw [found] at h
      cases here : children[position]? with
      | none =>
        simp only [here] at h
        cases h
        have beyond := List.getElem?_eq_none_iff.mp here
        exact .inl ⟨by simp [settingsPosition?, found, beyond], rfl⟩
      | some settings =>
        simp only [here] at h
        obtain ⟨rules, -, h⟩ := bind_eq_ok.mp h
        cases h
        exact .inr ⟨id, names, children, position, rfl, found, rfl⟩

/-- Splitting a built document leaves a built tree. -/
theorem built_body {document : Node} {t : Template} (built : document.Built)
    (h : ofDocument document = .ok t) : t.body.Built := by
  obtain ⟨-, same⟩ | ⟨id, names, children, position, rfl, -, body⟩ := body_cases_of_ofDocument h
  · exact same ▸ built
  · rw [body]
    cases built with
    | container fits each =>
      have fits : names.length = children.length := fits
      refine .container ?_ fun n mem => each n (List.mem_of_mem_eraseIdx mem)
      simp only [Form.Fits, List.length_eraseIdx, fits]

end Template

namespace Production

/-- A stream whose cursor fits the tree that it expands. -/
structure Sound (p : Production) : Prop where
  built : p.template.body.Built
  fits : p.template.body.Fits p.cursor

theorem sound_ofTemplate {t : Template} (built : t.body.Built) (mode : Mode) (amount : Nat) :
    (ofTemplate t mode amount).Sound :=
  ⟨built, Node.fits_fresh t.body⟩

/-- What a stream hands out stands in the tree that it expands, and nothing waits in it. -/
def HandsOut (body : Node) (pull : Pull Variation) : Prop :=
  ∀ v, pull = .item v → v.node.StandsIn body ∧ v.node.waiting = []

/-- A raw step leaves a cursor that fits, and hands out something that the tree can become. -/
theorem nextRaw_proper {p : Production} (h : p.Sound) :
    p.nextRaw.Always p.template.body.Proper := by
  cases mode : p.mode with
  | sample =>
    have drawn : p.nextRaw = (fun r => (.ofExcept r, p.cursor)) <$> p.template.body.sample.run := by
      simp only [nextRaw, mode, bind_pure_comp]
    rw [drawn, Draw.always_map]
    refine Draw.Always.mono (Node.sample_gives p.template.body) fun r yields => ⟨h.fits, ?_⟩
    intro v item
    cases r with
    | error e => cases item
    | ok u =>
      cases item
      exact yields v rfl
  | exhaustive =>
    have moved : p.nextRaw = p.template.body.advance p.cursor := by simp only [nextRaw, mode]
    exact moved ▸ Node.advance_proper _ p.cursor h.fits

theorem nextRaw_sound {p : Production} (h : p.Sound) :
    p.nextRaw.Always fun step => p.template.body.Fits step.2 ∧
      ∀ v, step.1 = .item v → v.node.StandsIn p.template.body :=
  (nextRaw_proper h).mono fun _ proper =>
    ⟨proper.1, fun v item => (proper.2 v item).standsIn h.built⟩

/-- A step keeps the invariant and the template. -/
theorem next_sound {p : Production} (h : p.Sound) :
    p.next.Always fun step => step.2.Sound ∧ step.2.template = p.template ∧
      HandsOut p.template.body step.1 := by
  rw [next]
  split
  · exact ⟨h, rfl, nofun⟩
  · rw [Draw.always_bind]
    refine (nextRaw_sound h).mono ?_
    rintro ⟨pull, cursor⟩ ⟨fits, stands⟩
    refine ⟨⟨h.built, fits⟩, rfl, fun v item => ?_⟩
    cases pull with
    | done | failed => cases item
    | item raw =>
      have settled : raw.settled p.template.rules = .ok v := by
        cases result : raw.settled p.template.rules <;>
          simp_all [Pull.bind, Pull.ofExcept]
      have here := stands raw rfl
      obtain ⟨filling, done⟩ :=
        Variation.filling_of_settled (fun c waits => here.checked h.built waits) settled
      exact ⟨filling.standsIn here, done⟩

/-- Every item of a run stands in the tree that the stream expands, and nothing waits in it. -/
theorem steps_sound {p : Production} (h : p.Sound) (amount : Nat) :
    (Draw.steps next amount p).Always fun r => ∀ pull ∈ r.1, HandsOut p.template.body pull := by
  refine Draw.steps_always (fun q => q.Sound ∧ q.template = p.template) ?_ amount
    ⟨h, rfl⟩
  rintro q ⟨sound, same⟩
  refine (next_sound sound).mono fun step kept => ?_
  exact ⟨⟨kept.1, kept.2.1.trans same⟩, same ▸ kept.2.2⟩

end Production

namespace Node

/-- Every variation that is generated from a document is concrete, whatever is drawn: no procedural
tag and no placeholder stands anywhere in it, and it can be written as a document and on one
line. -/
theorem generated_concrete {text source : String} {document : Node} {t : Template}
    (parsed : Node.parse text source = .ok document) (split : Template.ofDocument document = .ok t)
    (mode : Mode) (amount pulls : Nat) :
    (Draw.steps Production.next pulls (.ofTemplate t mode amount)).Always fun r =>
      ∀ v, Pull.item v ∈ r.1 → v.node.Concrete ∧ (∃ text, v.node.toYaml = .ok text) ∧
        ∃ text, v.node.toFlow = .ok text := by
  have built : t.body.Built := Template.built_body (readable_of_parse parsed).built split
  refine (Production.steps_sound (Production.sound_ofTemplate built mode amount) pulls).mono ?_
  intro r each v mem
  obtain ⟨stands, done⟩ := each _ mem v rfl
  have concrete := stands.concrete done
  exact ⟨concrete, concrete.written⟩

theorem generated_concrete_choice :
    Node.parse "- !ProcList [1, 2]\n" "choice" = .ok (.sequence [.choice [int 1, int 2]]) ∧
      (Draw.steps Production.next 1
        (.ofTemplate ⟨.sequence [.choice [int 1, int 2]], []⟩ .sample 1)).Always fun r =>
          ∀ v, Pull.item v ∈ r.1 → v.node.Concrete ∧ (∃ text, v.node.toYaml = .ok text) ∧
            ∃ text, v.node.toFlow = .ok text :=
  ⟨parse_choice, generated_concrete parse_choice rfl .sample 1 1⟩

end Node

end ArenaVariations
