import ArenaVariations.Proofs.Command.Results
import ArenaVariations.Proofs.Files.Hidden
import ArenaVariations.Proofs.Generation.Collected

/-!
# How results are produced

The results of a template are put into a hidden folder while they are produced. What becomes of them
is decided by the template and the generator alone, unless the file system stops the run: either the
template fails, and then the tree is as it was before the hidden folder was created, or there are
results, and then the tree is as if they had been written straight into the output folder. Where the
file system stops the run, some of the first results may have come there. The hidden folder is gone
in any case.
-/

namespace ArenaVariations

open ArenaVariations.Random (Generator)
open FileTree (Aside leaves)

theorem ok_bind {ε α β : Type} (a : α) (f : α → Except ε β) : Except.ok a >>= f = f a := rfl

namespace Production

/-- The files of the next variations, up to so many, and their rows in the index. Each variation is
written out before the next one is produced, and the first failure ends them. -/
def rendered (path : Path) : Nat → Nat → Production → Drawing (List ((String × String) × String))
  | 0, _, _ => return []
  | amount + 1, index, p => do
    match ← ExceptT.lift p.next with
    | (.done, _) => return []
    | (.failed e, _) => throw (e.annotate path.text)
    | (.item v, p) =>
      match Results.ofVariation (Output.stem path) index v with
      | .error e => throw e
      | .ok entry => return entry :: (← rendered path amount (index + 1) p)

theorem rendered_succ (path : Path) (amount index : Nat) (p : Production) :
    (rendered path (amount + 1) index p).run = p.next >>= fun
      | (.done, _) => return .ok []
      | (.failed e, _) => return .error (e.annotate path.text)
      | (.item v, p) =>
        match Results.ofVariation (Output.stem path) index v with
        | .error e => return .error e
        | .ok entry => (Except.map (entry :: ·)) <$> (rendered path amount (index + 1) p).run := by
  rw [rendered, ExceptT.run_bind, ExceptT.run_lift, bind_map_left]
  refine bind_congr fun step => ?_
  obtain ⟨pull, q⟩ := step
  cases pull with
  | done => rfl
  | failed e => rfl
  | item v =>
    dsimp only
    cases Results.ofVariation (Output.stem path) index v with
    | error e => rfl
    | ok entry =>
      change (rendered path amount (index + 1) q >>= fun rest => pure (entry :: rest)).run = _
      rw [bind_pure_comp, ExceptT.run_map]

/-- If all variations can be written out, they are those that are collected. -/
theorem collect_of_rendered {path : Path} {amount index : Nat} {p : Production} {g : Generator}
    {entries : List ((String × String) × String)}
    (ready : ((rendered path amount index p).run.run g).1 = .ok entries) :
    ∃ vs, ((collect amount p).run.run g).1 = .ok vs ∧
      Results.ofVariationsFrom (Output.stem path) index vs = .ok entries := by
  induction amount generalizing index p g entries with
  | zero =>
    cases ready
    exact ⟨[], rfl, rfl⟩
  | succ amount ih =>
    rw [rendered_succ, Draw.run_seq] at ready
    rw [collect_succ, Draw.run_seq]
    cases step : (p.next.run g).1 with
    | mk pull q =>
      rw [step] at ready
      cases pull with
      | done =>
        cases ready
        exact ⟨[], rfl, rfl⟩
      | failed e => cases ready
      | item v =>
        dsimp only at ready
        cases first : Results.ofVariation (Output.stem path) index v with
        | error e =>
          rw [first] at ready
          cases ready
        | ok entry =>
          rw [first, Draw.run_map] at ready
          obtain ⟨rest, others, rfl⟩ := map_eq_ok.mp ready
          obtain ⟨vs, collected, written⟩ := ih others
          refine ⟨v :: vs, ?_, ?_⟩
          · dsimp only
            rw [Draw.run_map, collected]
            rfl
          · rw [Results.ofVariationsFrom, first, ok_bind, written]
            rfl

end Production

namespace Run

/-- The text of the copy of a template, if there is to be one. -/
def copyText (copy : Bool) (document : Node) : Except Error (Option String) :=
  if copy then some <$> document.toYaml else pure none

theorem isSome_of_copyText {copy : Bool} {document : Node} {text : Option String}
    (copied : copyText copy document = .ok text) : text.isSome = copy := by
  cases copy with
  | true =>
    rw [copyText, if_pos rfl] at copied
    obtain ⟨written, -, rfl⟩ := map_eq_ok.mp copied
    rfl
  | false =>
    cases copied
    rfl

/-- The results that a production leads to. -/
def resultsFrom (path : Path) (document : Node) (production : Production) (amount : Nat)
    (copy : Bool) (g : Generator) : Except Error Results := do
  let text ← copyText copy document
  let entries ← ((production.rendered path amount 1).run.run g).1
  return Results.ofEntries text entries

/-- The results of a template that is not refused. -/
def resultsOf (path : Path) (document : Node) (mode : Mode) (amount : Nat) (copy : Bool)
    (g : Generator) : Except Error Results :=
  match Template.ofDocument document with
  | .error fault => .error ((Error.ofFault fault).annotate path.text)
  | .ok template =>
    resultsFrom path document (Production.ofTemplate template mode amount) amount copy g

/-- The tree once the folder that a folder lies in has been created. -/
def enclosed (folder : Path) (t : Files) : Files :=
  (t.createFolders (enclosing folder)).2

/-- The failures that the file system is to blame for. -/
def OfFiles : CommandFailure → Prop
  | .folderNotCreated _ | .notStaged _ | .notCreated _ | .notWritten _ | .notMoved _ => True
  | _ => False

/-- Creating a folder fails because of the file system, or the run goes on. -/
theorem on_createFolders_bind {β : Type} {q : Path} {f : Unit → Run (StateM Files) β}
    {p p' : Progress} {t t' : Files} {r : Except CommandFailure β}
    (ran : on (createFolders q >>= f) p t = ⟨r, p', t'⟩) :
    (p' = p ∧ t' = (t.createFolders q).2 ∧ ∃ e, r = .error e ∧ OfFiles e) ∨
      (t.createFolders q).1 = true ∧ on (f ()) p (t.createFolders q).2 = ⟨r, p', t'⟩ := by
  rw [on_bind, on_createFolders] at ran
  cases created : (t.createFolders q).1 with
  | false =>
    rw [created] at ran
    cases ran
    exact .inl ⟨rfl, rfl, _, rfl, trivial⟩
  | true =>
    rw [created] at ran
    exact .inr ⟨rfl, ran⟩

/-- The first tree is what the second one is without a hidden folder that holds certain results. -/
structure Staged (hidden : Path) (above : List String) (name : String)
    (files : List (String × String)) (t u : Files) : Prop where
  placed : t.place hidden = .ok (above ++ [name])
  aside : Aside above name (leaves (files.map fun f => (f.1, f.2.toUTF8))) t u

theorem map_fst_toUTF8 (files : List (String × String)) :
    (files.map fun f => (f.1, f.2.toUTF8)).map Prod.fst = files.map Prod.fst := by
  rw [List.map_map]
  rfl

section

variable {path hidden folder : Path} {document : Node} {production : Production}
  {amount index : Nat} {copy : Bool} {above : List String} {name other text : String}
  {files : List (String × String)} {p p' : Progress} {t t' u u' : Files}

/-- A result with a new name is put into the hidden folder, unless the file system is to blame. -/
theorem Staged.write_fresh (h : Staged hidden above name files t u) (named : Path.IsName other)
    (fresh : other ∉ files.map Prod.fst) (text : String) (failure : CommandFailure) (p : Progress) :
    on (require (Workspace.writeText (hidden.join ⟨other⟩) text) failure) p u =
        ⟨.error failure, p, u⟩ ∨
      ∃ u', on (require (Workspace.writeText (hidden.join ⟨other⟩) text) failure) p u =
        ⟨.ok (), p, u'⟩ ∧ Staged hidden above name (files ++ [(other, text)]) t u' := by
  have run : (Workspace.writeText (hidden.join ⟨other⟩) text : StateM Files Bool).run u =
    u.write (hidden.join ⟨other⟩) text.toUTF8 := rfl
  rw [on_require, run]
  rw [← map_fst_toUTF8] at fresh
  obtain failed | ⟨u', written, aside⟩ := h.aside.write_fresh h.placed named fresh text.toUTF8
  · rw [failed]
    exact .inl rfl
  · rw [written]
    refine .inr ⟨u', rfl, h.placed, ?_⟩
    rwa [List.map_append]

/-- The first result in the hidden folder is written again, unless the file system is to blame. -/
theorem Staged.write_first (h : Staged hidden above name ((other, text) :: files) t u)
    (named : Path.IsName other) (text' : String) (failure : CommandFailure) (p : Progress) :
    on (require (Workspace.writeText (hidden.join ⟨other⟩) text') failure) p u =
        ⟨.error failure, p, u⟩ ∨
      ∃ u', on (require (Workspace.writeText (hidden.join ⟨other⟩) text') failure) p u =
        ⟨.ok (), p, u'⟩ ∧ Staged hidden above name ((other, text') :: files) t u' := by
  have run : (Workspace.writeText (hidden.join ⟨other⟩) text' : StateM Files Bool).run u =
    u.write (hidden.join ⟨other⟩) text'.toUTF8 := rfl
  rw [on_require, run]
  obtain failed | ⟨u', written, aside⟩ := h.aside.write_first h.placed named text'.toUTF8
  · rw [failed]
    exact .inl rfl
  · rw [written]
    exact .inr ⟨u', rfl, h.placed, aside⟩

/-- How a step in the hidden folder ends that adds results to it, with what is decided about them by
the template and the generator. The tree without the hidden folder stays as it is. -/
inductive Adds {α β : Type} (decision : Except Error α) (value : α → β)
    (more : α → List (String × String)) (hidden : Path) (above : List String) (name : String)
    (files : List (String × String)) (t : Files) : Except CommandFailure β → Files → Prop where
  | stopped {e : CommandFailure} {left : List (String × String)} {u' : Files} (blame : OfFiles e)
      (rest : Staged hidden above name left t u') :
      Adds decision value more hidden above name files t (.error e) u'
  | failed {e : Error} {left : List (String × String)} {u' : Files} (decided : decision = .error e)
      (rest : Staged hidden above name left t u') :
      Adds decision value more hidden above name files t (.error (.template e)) u'
  | added {a : α} {u' : Files} (decided : decision = .ok a)
      (rest : Staged hidden above name (files ++ more a) t u') :
      Adds decision value more hidden above name files t (.ok (value a)) u'

/-- The copy of the template is added to the results, if there is to be one. -/
theorem stageCopy_adds {r : Except CommandFailure Unit} (h : Staged hidden above name files t u)
    (fresh : templateCopyName ∉ files.map Prod.fst)
    (ran : on (stageCopy document hidden copy) p u = ⟨r, p', u'⟩) :
    p' = p ∧ Adds (copyText copy document) (fun _ => ())
      (fun text => text.toList.map fun text => (templateCopyName, text)) hidden above name files t
      r u' := by
  cases copy with
  | false =>
    cases ran
    refine ⟨rfl, .added (a := none) rfl ?_⟩
    rwa [Option.toList_none, List.map_nil, List.append_nil]
  | true =>
    rw [copyText, if_pos rfl]
    rw [stageCopy, if_pos rfl, on_bind] at ran
    cases written : document.toYaml with
    | error e =>
      rw [written] at ran
      cases ran
      exact ⟨rfl, .failed rfl h⟩
    | ok text =>
      rw [written] at ran
      change on (stage hidden templateCopyName text) p u = _ at ran
      rw [stage] at ran
      obtain failed | ⟨u₁, stored, h₁⟩ := h.write_fresh Results.isName_templateCopyName fresh text
        (.notWritten (hidden.join ⟨templateCopyName⟩)) p
      · rw [failed] at ran
        cases ran
        exact ⟨rfl, .stopped trivial h⟩
      · rw [stored] at ran
        cases ran
        exact ⟨rfl, .added (a := some text) rfl h₁⟩

theorem name_of_ofVariation {stem : String} {v : Variation} {own row : String}
    (written : Results.ofVariation stem index v = .ok ((own, text), row)) :
    own = Output.variationName stem index v.labels := by
  obtain ⟨text, -, same⟩ := bind_eq_ok.mp written
  cases same
  rfl

theorem on_stageVariations_succ (path hidden : Path) (amount index : Nat) (production : Production)
    (p : Progress) (u : Files) :
    on (stageVariations path hidden (amount + 1) index production) p u =
      match (production.next.run p.generator).1 with
      | (.done, _) => ⟨.ok [], ⟨(production.next.run p.generator).2, p.printed⟩, u⟩
      | (.failed e, _) => ⟨.error (.template (e.annotate path.text)),
          ⟨(production.next.run p.generator).2, p.printed⟩, u⟩
      | (.item v, rest) =>
        match Results.ofVariation (Output.stem path) index v with
        | .error e => ⟨.error (.template e), ⟨(production.next.run p.generator).2, p.printed⟩, u⟩
        | .ok ((own, text), row) =>
          on (do
            stage hidden own text
            let rows ← stageVariations path hidden amount (index + 1) rest
            return row :: rows) ⟨(production.next.run p.generator).2, p.printed⟩ u := by
  rw [stageVariations, on_bind, on_draw]
  rcases (production.next.run p.generator).1 with ⟨pull, rest⟩
  cases pull with
  | done => rfl
  | failed e => rfl
  | item v =>
    dsimp only
    rw [on_bind]
    cases Results.ofVariation (Output.stem path) index v <;> rfl

/-- None of some files is called like a variation from an index on. -/
def FreshFrom (stem : String) (index : Nat) (files : List (String × String)) : Prop :=
  ∀ i labels, index ≤ i → Output.variationName stem i labels ∉ files.map Prod.fst

/-- The names of variations start anew with each index. -/
theorem FreshFrom.next {stem : String} (fresh : FreshFrom stem index files) (labels : List String)
    (text : String) :
    FreshFrom stem (index + 1) (files ++ [(Output.variationName stem index labels, text)]) := by
  intro i labels' later mem
  rw [List.map_append, List.mem_append] at mem
  obtain mem | mem := mem
  · exact fresh i labels' (by omega) mem
  · have same := Output.variationName_injective (List.mem_singleton.mp mem)
    omega

/-- The index and the copy of the template are not called like a variation. -/
theorem freshFrom_copy (stem : String) (index : Nat) (text : Option String) :
    FreshFrom stem index
      ([(labelIndexName, "")] ++ text.toList.map fun text => (templateCopyName, text)) := by
  intro i labels _ mem
  obtain ⟨file, among, same⟩ := List.mem_map.mp mem
  obtain among | among := List.mem_append.mp among
  · rw [List.mem_singleton.mp among] at same
    exact Output.variationName_ne_labelIndexName _ i labels same.symm
  · obtain ⟨copied, -, rfl⟩ := List.mem_map.mp among
    exact Output.variationName_ne_templateCopyName _ i labels same.symm

theorem Staged.adds_nothing (h : Staged hidden above name files t u) :
    Adds (.ok ([] : List ((String × String) × String))) (List.map Prod.snd) (List.map Prod.fst)
      hidden above name files t (.ok []) u := by
  refine .added (a := []) rfl ?_
  rwa [List.map_nil, List.append_nil]

/-- What is added behind one file is added together with it. -/
theorem Adds.cons {decision : Except Error (List ((String × String) × String))}
    {r : Except CommandFailure (List String)} (entry : (String × String) × String)
    (adds : Adds decision (List.map Prod.snd) (List.map Prod.fst) hidden above name
      (files ++ [entry.1]) t r u') :
    Adds (decision.map (entry :: ·)) (List.map Prod.snd) (List.map Prod.fst) hidden above name files
      t (r.map (entry.2 :: ·)) u' := by
  cases adds with
  | stopped blame rest => exact .stopped blame rest
  | failed decided rest =>
    rw [decided]
    exact .failed rfl rest
  | @added entries _ decided rest =>
    rw [decided]
    rw [List.append_assoc] at rest
    exact .added (a := entry :: entries) rfl rest

/-- One variation is added to the results, and after it those that the rest of a run adds. -/
theorem Staged.stage_adds {decision : Except Error (List ((String × String) × String))}
    {row : String} {r : Except CommandFailure (List String)}
    (h : Staged hidden above name files t u) (more : Run (StateM Files) (List String))
    (named : Path.IsName other) (fresh : other ∉ files.map Prod.fst)
    (after : ∀ {u₁ r p' u'}, Staged hidden above name (files ++ [(other, text)]) t u₁ →
      on more p u₁ = ⟨r, p', u'⟩ → p'.printed = p.printed ∧
        Adds decision (List.map Prod.snd) (List.map Prod.fst) hidden above name
          (files ++ [(other, text)]) t r u')
    (ran : on (do
      stage hidden other text
      let rows ← more
      return row :: rows) p u = ⟨r, p', u'⟩) :
    p'.printed = p.printed ∧
      Adds (decision.map (((other, text), row) :: ·)) (List.map Prod.snd) (List.map Prod.fst) hidden
        above name files t r u' := by
  rw [on_bind, stage] at ran
  obtain failed | ⟨u₁, stored, h₁⟩ := h.write_fresh named fresh text
    (.notWritten (hidden.join ⟨other⟩)) p
  · rw [failed] at ran
    cases ran
    exact ⟨rfl, .stopped trivial h⟩
  · rw [stored] at ran
    dsimp only at ran
    rw [on_bind] at ran
    rcases rest : on more p u₁ with ⟨r₁, p₁, u₂⟩
    rw [rest] at ran
    obtain ⟨printed, adds⟩ := after h₁ rest
    have whole := Adds.cons ((other, text), row) adds
    cases r₁ with
    | error e =>
      cases ran
      exact ⟨printed, whole⟩
    | ok rows =>
      cases ran
      exact ⟨printed, whole⟩

/-- The next variations are added to the results, with their rows for the index. -/
theorem stageVariations_adds {r : Except CommandFailure (List String)}
    (h : Staged hidden above name files t u) (fresh : FreshFrom (Output.stem path) index files)
    (ran : on (stageVariations path hidden amount index production) p u = ⟨r, p', u'⟩) :
    p'.printed = p.printed ∧
      Adds ((production.rendered path amount index).run.run p.generator).1 (List.map Prod.snd)
        (List.map Prod.fst) hidden above name files t r u' := by
  induction amount generalizing index production p u files r p' u' with
  | zero =>
    cases ran
    exact ⟨rfl, h.adds_nothing⟩
  | succ amount ih =>
    rw [on_stageVariations_succ] at ran
    rw [Production.rendered_succ, Draw.run_seq]
    rcases step : (production.next.run p.generator).1 with ⟨pull, rest⟩
    rw [step] at ran
    cases pull with
    | done =>
      cases ran
      exact ⟨rfl, h.adds_nothing⟩
    | failed e =>
      cases ran
      exact ⟨rfl, .failed rfl h⟩
    | item v =>
      dsimp only at ran ⊢
      cases written : Results.ofVariation (Output.stem path) index v with
      | error e =>
        rw [written] at ran
        cases ran
        exact ⟨rfl, .failed rfl h⟩
      | ok entry =>
        obtain ⟨⟨own, text⟩, row⟩ := entry
        obtain rfl := name_of_ofVariation written
        rw [written] at ran
        dsimp only at ran
        rw [Draw.run_map]
        have named := Output.isName_variationName (Output.slash_not_mem_stem path) index v.labels
        exact h.stage_adds (p := ⟨(production.next.run p.generator).2, p.printed⟩)
          (stageVariations path hidden amount (index + 1) rest) named
          (fresh index _ (Nat.le_refl _)) (fun h₁ ran => ih h₁ (fresh.next _ _) ran) ran

theorem on_moveAllTo_cons (hidden folder : Path) (names : List String) (p : Progress) (u : Files) :
    on (moveAllTo hidden folder (other :: names)) p u =
      if (u.move (hidden.join ⟨other⟩) (folder.join ⟨other⟩)).1 then
        on (moveAllTo hidden folder names) p (u.move (hidden.join ⟨other⟩) (folder.join ⟨other⟩)).2
      else
        ⟨.error (.notMoved (folder.join ⟨other⟩)), p,
          (u.move (hidden.join ⟨other⟩) (folder.join ⟨other⟩)).2⟩ := by
  have run : (Workspace.moveFile (hidden.join ⟨other⟩) (folder.join ⟨other⟩) :
      StateM Files Bool).run u = u.move (hidden.join ⟨other⟩) (folder.join ⟨other⟩) := rfl
  rw [moveAllTo, on_bind, on_require, run]
  cases (u.move (hidden.join ⟨other⟩) (folder.join ⟨other⟩)).1 <;> rfl

/-- Results that are moved out of the hidden folder are written into the output folder, as far as
the file system lets them. -/
theorem moveAllTo_cases {r : Except CommandFailure Unit} (h : Staged hidden above name files t u)
    (named : ∀ f ∈ files, Path.IsName f.1) (distinct : (files.map Prod.fst).Nodup)
    (apart : name ∉ files.map Prod.fst) (free : name ∉ folder.names)
    (ran : on (moveAllTo hidden folder (files.map Prod.fst)) p u = ⟨r, p', u'⟩) :
    p' = p ∧ ∃ done left t', done <+: files ∧
      on (writeAllTo folder done) p t = ⟨.ok (), p, t'⟩ ∧ Staged hidden above name left t' u' ∧
        (r = .ok () ∧ done = files ∨ ∃ e, r = .error e ∧ OfFiles e) := by
  induction files generalizing t u with
  | nil =>
    cases ran
    exact ⟨rfl, [], [], t, List.prefix_rfl, rfl, h, .inl ⟨rfl, rfl⟩⟩
  | cons file files ih =>
    obtain ⟨first, named⟩ := List.forall_mem_cons.mp named
    obtain ⟨fresh, distinct⟩ := List.nodup_cons.mp distinct
    obtain ⟨differ, apart⟩ := not_or.mp (fun mem => apart (List.mem_cons.mpr mem))
    have off : name ∉ (folder.join ⟨file.1⟩).names := by
      rw [(folder.lead_names_join_name first).2, List.mem_append, not_or]
      exact ⟨free, fun mem => differ (List.mem_singleton.mp mem)⟩
    rw [← map_fst_toUTF8] at fresh
    rw [List.map_cons, on_moveAllTo_cons] at ran
    obtain failed | ⟨u₁, moved, written, aside⟩ := h.aside.move h.placed first fresh off
    · rw [failed] at ran
      cases ran
      exact ⟨rfl, [], file :: files, t, List.nil_prefix, rfl, h, .inr ⟨_, rfl, trivial⟩⟩
    · rw [moved, if_pos rfl] at ran
      have h₁ :
          Staged hidden above name files (t.write (folder.join ⟨file.1⟩) file.2.toUTF8).2 u₁ :=
        ⟨FileTree.place_mono (t.write_keeps_folders _ _) h.placed, aside⟩
      obtain ⟨same, done, left, t', part, stored, rest, ended⟩ := ih h₁ named distinct apart ran
      refine ⟨same, file :: done, left, t', List.cons_prefix_cons.mpr ⟨rfl, part⟩, ?_, rest, ?_⟩
      · rw [on_writeAllTo_cons, if_pos written, stored]
      · obtain ⟨ok, all⟩ | failed := ended
        · exact .inl ⟨ok, congrArg (file :: ·) all⟩
        · exact .inr failed

/-- All files in the hidden folder are found there. -/
theorem Staged.on_namesIn (h : Staged hidden above name files t u) (p : Progress) :
    on (namesIn hidden) p u = ⟨.ok (files.map Prod.fst), p, u⟩ := by
  have outline : u.outlineOf hidden =
      .folder (FileTree.outlineAll (leaves (files.map fun f => (f.1, f.2.toUTF8)))) := by
    rw [FileTree.outlineOf,
      FileTree.find_eq_ok.mpr ⟨_, h.aside.place_hidden h.placed, h.aside.there⟩]
    rfl
  have run : (Workspace.outline hidden : StateM Files _).run u = (u.outlineOf hidden, u) := rfl
  rw [namesIn, on_bind, on_inWorkspace, run, outline, FileTree.outlineAll_eq]
  dsimp only
  rw [on_pure, List.map_map, ← map_fst_toUTF8, ← FileTree.map_fst_leaves]
  rfl

end

/-- How producing the results of a template ends on a tree, with what is decided by the template and
the generator. -/
inductive Ends (decision : Except Error Results) (folder : Path) (t : Files) :
    Except CommandFailure Nat → Files → Prop where
  /-- The template fails. -/
  | failed {e : Error} (decided : decision = .error e) :
      Ends decision folder t (.error (.template e)) t
  /-- The file system stops the run before anything is moved. -/
  | stopped {e : CommandFailure} (blame : OfFiles e) : Ends decision folder t (.error e) t
  /-- The file system stops the run when some of the results have been moved. -/
  | interrupted {results : Results} {done : List (String × String)} {e : CommandFailure}
      {p : Progress} {t' : Files} (decided : decision = .ok results) (part : done <+: results.files)
      (stored : on (writeAllTo folder done) p (t.createFolders folder).2 = ⟨.ok (), p, t'⟩)
      (blame : OfFiles e) : Ends decision folder t (.error e) t'
  /-- All results are in the output folder. -/
  | written {results : Results} {p : Progress} {t' : Files} (decided : decision = .ok results)
      (stored : on (writeAllTo folder results.files) p (t.createFolders folder).2 =
        ⟨.ok (), p, t'⟩) : Ends decision folder t (.ok results.written) t'

section

variable {path hidden folder : Path} {document : Node} {production : Production} {mode : Mode}
  {amount : Nat} {copy : Bool} {above : List String} {number : Nat} {p p' : Progress}
  {t t' u u' : Files}

/-- No result is called like a hidden folder. -/
theorem hiddenName_not_mem_filesOf (number : Nat) (stem : String) (text : Option String)
    (vs : List Variation) (texts : List String) :
    hiddenName number ∉ (Results.filesOf stem text vs texts).map Prod.fst := by
  intro mem
  obtain ⟨file, among, same⟩ := List.mem_map.mp mem
  obtain ⟨i, v, -, named⟩ | named | ⟨-, named⟩ := Results.name_of_mem_filesOf among
  · apply underscore_not_mem_hiddenName number
    rw [← same, named]
    exact Output.underscore_mem_variationName stem (i + 1) v.labels
  · exact hiddenName_ne (by simp [labelIndexName]) number (same.symm.trans named)
  · exact hiddenName_ne (by simp [templateCopyName]) number (same.symm.trans named)

/-- Moving the results to the output folder is the same as writing them there, unless the file
system stops the run after some of them. -/
theorem deliver_ends {name : String} {files : List (String × String)}
    {r : Except CommandFailure Unit}
    (h : Staged hidden above name files t u) (named : ∀ f ∈ files, Path.IsName f.1)
    (distinct : (files.map Prod.fst).Nodup) (apart : name ∉ files.map Prod.fst)
    (free : name ∉ folder.names) (ran : on (deliver hidden folder) p u = ⟨r, p', u'⟩) :
    p' = p ∧ ∃ left t', Staged hidden above name left t' u' ∧
      (r = .ok () ∧ on (writeAllTo folder files) p (t.createFolders folder).2 = ⟨.ok (), p, t'⟩ ∨
        ∃ e, r = .error e ∧ OfFiles e ∧ ∃ done, done <+: files ∧
          on (writeAllTo folder done) p (t.createFolders folder).2 = ⟨.ok (), p, t'⟩) := by
  obtain ⟨same, aside⟩ := h.aside.createFolders free
  have h₁ : Staged hidden above name files (t.createFolders folder).2 (u.createFolders folder).2 :=
    ⟨FileTree.place_mono
        (fun _ there => (t.createFolders_grown folder).standing?_eq there) h.placed,
      aside⟩
  rw [deliver] at ran
  obtain ⟨rfl, rfl, e, rfl, blame⟩ | ⟨-, ran⟩ := on_createFolders_bind ran
  · exact ⟨rfl, files, _, h₁, .inr ⟨e, rfl, blame, [], List.nil_prefix, rfl⟩⟩
  · rw [on_bind, h₁.on_namesIn] at ran
    obtain ⟨rfl, done, left, t', part, stored, rest, ⟨rfl, rfl⟩ | ⟨e, rfl, blame⟩⟩ :=
      moveAllTo_cases h₁ named distinct apart free ran
    · exact ⟨rfl, left, t', rest, .inl ⟨rfl, stored⟩⟩
    · exact ⟨rfl, left, t', rest, .inr ⟨e, rfl, blame, done, part, stored⟩⟩

/-- The results of a template have names of their own, other than that of the hidden folder. -/
theorem names_of_rendered {g : Generator} {entries : List ((String × String) × String)}
    (decided : ((production.rendered path amount 1).run.run g).1 = .ok entries)
    (text : Option String) (number : Nat) :
    (∀ f ∈ (Results.ofEntries text entries).files, Path.IsName f.1) ∧
      ((Results.ofEntries text entries).files.map Prod.fst).Nodup ∧
      hiddenName number ∉ (Results.ofEntries text entries).files.map Prod.fst := by
  obtain ⟨vs, -, written⟩ := Production.collect_of_rendered decided
  obtain ⟨texts, each, same⟩ := Results.ofEntries_of_ofVariationsFrom text written
  rw [congrArg Results.files same]
  exact ⟨fun _ => Results.isName_of_mem_filesOf (Output.slash_not_mem_stem path),
    Results.nodup_filesOf _ text each.length_eq, hiddenName_not_mem_filesOf number _ text vs texts⟩

/-- With everything else in the hidden folder, the index is written again and the results go to the
output folder. -/
theorem finish_ends {text : Option String} {entries : List ((String × String) × String)}
    {g : Generator} {r : Except CommandFailure Nat}
    (h : Staged hidden above (hiddenName number) ([(labelIndexName, "")] ++
      (text.toList.map fun text => (templateCopyName, text)) ++ entries.map Prod.fst) t u)
    (free : hiddenName number ∉ folder.names)
    (decided : ((production.rendered path amount 1).run.run g).1 = .ok entries)
    (ran : on (do
      stage hidden labelIndexName (String.join (entries.map Prod.snd))
      deliver hidden folder
      return (entries.map Prod.snd).length) p u = ⟨r, p', u'⟩) :
    p' = p ∧ ∃ left t', Ends (.ok (Results.ofEntries text entries)) folder t r t' ∧
      Staged hidden above (hiddenName number) left t' u' := by
  rw [on_bind, stage] at ran
  obtain failed | ⟨u₁, stored, h₁⟩ := h.write_first Results.isName_labelIndexName
    (String.join (entries.map Prod.snd)) (.notWritten (hidden.join ⟨labelIndexName⟩)) p
  · rw [failed] at ran
    cases ran
    exact ⟨rfl, _, t, .stopped trivial, h⟩
  · rw [stored] at ran
    dsimp only at ran
    rw [on_bind] at ran
    change Staged hidden above _ (Results.ofEntries text entries).files t u₁ at h₁
    obtain ⟨named, distinct, apart⟩ := names_of_rendered decided text number
    rcases delivering : on (deliver hidden folder) p u₁ with ⟨r₂, p₂, u₂⟩
    rw [delivering] at ran
    obtain ⟨rfl, left, t', rest, ended⟩ := deliver_ends h₁ named distinct apart free delivering
    obtain ⟨rfl, stored⟩ | ⟨e, rfl, blame, done, part, stored⟩ := ended
    · cases ran
      have count : (entries.map Prod.snd).length = (Results.ofEntries text entries).written :=
        List.length_map _
      rw [count]
      exact ⟨rfl, left, t', .written rfl stored, rest⟩
    · cases ran
      exact ⟨rfl, left, t', .interrupted rfl part stored blame, rest⟩

/-- The variations are added to the index and the copy of the template, and the results go to the
output folder, as it has been decided before, unless the file system stops the run. -/
theorem variations_end {text : Option String} {r : Except CommandFailure Nat}
    (h : Staged hidden above (hiddenName number) ([(labelIndexName, "")] ++
      text.toList.map fun text => (templateCopyName, text)) t u)
    (free : hiddenName number ∉ folder.names)
    (ran : on (do
      let rows ← stageVariations path hidden amount 1 production
      stage hidden labelIndexName (String.join rows)
      deliver hidden folder
      return rows.length) p u = ⟨r, p', u'⟩) :
    p'.printed = p.printed ∧ ∃ left t',
      Ends (((production.rendered path amount 1).run.run p.generator).1.map
        (Results.ofEntries text)) folder t r t' ∧
        Staged hidden above (hiddenName number) left t' u' := by
  rw [on_bind] at ran
  rcases producing : on (stageVariations path hidden amount 1 production) p u with ⟨r₁, p₁, u₁⟩
  rw [producing] at ran
  obtain ⟨printed, adds⟩ := stageVariations_adds h (freshFrom_copy _ 1 text) producing
  cases adds with
  | stopped blame h₁ =>
    cases ran
    exact ⟨printed, _, t, .stopped blame, h₁⟩
  | failed decided h₁ =>
    cases ran
    exact ⟨printed, _, t, .failed (by rw [decided]; rfl), h₁⟩
  | added decided h₁ =>
    obtain ⟨rfl, left, t', ends, rest⟩ := finish_ends h₁ free decided ran
    rw [decided]
    exact ⟨printed, left, t', ends, rest⟩

/-- Filling the output folder from a hidden folder ends as it has been decided before, unless the
file system stops the run. -/
theorem fill_ends {r : Except CommandFailure Nat}
    (h : Staged hidden above (hiddenName number) [] t u) (free : hiddenName number ∉ folder.names)
    (ran : on (fill path document production amount folder copy hidden) p u = ⟨r, p', u'⟩) :
    p'.printed = p.printed ∧ ∃ left t',
      Ends (resultsFrom path document production amount copy p.generator) folder t r t' ∧
        Staged hidden above (hiddenName number) left t' u' := by
  rw [fill, on_bind] at ran
  rw [resultsFrom]
  -- the index, with no rows as yet
  obtain failed | ⟨u₁, stored, h₁⟩ := h.write_fresh Results.isName_labelIndexName
    List.not_mem_nil "" (.notCreated (hidden.join ⟨labelIndexName⟩)) p
  · rw [failed] at ran
    cases ran
    exact ⟨rfl, [], t, .stopped trivial, h⟩
  · rw [stored] at ran
    dsimp only at ran
    rw [on_bind] at ran
    rcases copying : on (stageCopy document hidden copy) p u₁ with ⟨r₂, p₂, u₂⟩
    rw [copying] at ran
    obtain ⟨rfl, adds⟩ := stageCopy_adds h₁ (by simp [labelIndexName, templateCopyName]) copying
    cases adds with
    | stopped blame h₂ =>
      cases ran
      exact ⟨rfl, _, t, .stopped blame, h₂⟩
    | failed decided h₂ =>
      cases ran
      exact ⟨rfl, _, t, .failed (by rw [decided]; rfl), h₂⟩
    | added copied h₂ =>
      rw [copied, ok_bind]
      obtain ⟨printed, left, t', ends, rest⟩ := variations_end h₂ free ran
      refine ⟨printed, left, t', ?_, rest⟩
      cases decided : ((production.rendered path amount 1).run.run p₂.generator).1 with
      | error e =>
        rw [decided] at ends
        exact ends
      | ok entries =>
        rw [decided] at ends
        exact ends

/-- The file system does not allow for a hidden folder, or work is done in one, which is removed
then. -/
theorem withHidden_cases {work : Path → Run (StateM Files) Nat} {r : Except CommandFailure Nat}
    (ran : on (withHidden folder work) p t = ⟨r, p', t'⟩) :
    (p' = p ∧ t' = enclosed folder t ∧ ∃ e, r = .error e ∧ OfFiles e) ∨
      ∃ hidden above number u u', hiddenName number ∉ folder.names ∧
        Staged hidden above (hiddenName number) [] (enclosed folder t) u ∧
        on (work hidden) p u = ⟨r, p', u'⟩ ∧ t' = u'.removeFolder hidden := by
  rw [withHidden] at ran
  obtain stopped | ⟨-, ran⟩ := on_createFolders_bind ran
  · exact .inl stopped
  · have run : (Workspace.createHidden (enclosing folder) folder : StateM Files _).run
        (enclosed folder t) = (enclosed folder t).createHidden (enclosing folder) folder := rfl
    rw [← enclosed, on_bind, on_inWorkspace, run] at ran
    obtain none | ⟨above, number, u, some, free, placed, aside⟩ :=
      (enclosed folder t).createHidden_cases (enclosing folder) folder
    · rw [none] at ran
      cases ran
      exact .inl ⟨rfl, rfl, _, rfl, trivial⟩
    · rw [some] at ran
      dsimp only at ran
      generalize (enclosing folder).join ⟨hiddenName number⟩ = hidden at ran placed
      rw [on_bind, on_attempt] at ran
      rcases worked : on (work hidden) p u with ⟨r₁, p₁, u₁⟩
      rw [worked] at ran
      refine .inr ⟨hidden, above, number, u, u₁, free, ⟨placed, aside⟩, ?_⟩
      cases r₁ with
      | error e =>
        cases ran
        exact ⟨worked, rfl⟩
      | ok n =>
        cases ran
        exact ⟨worked, rfl⟩

/-- Writing the results of a template ends as it has been decided before, unless the file system
stops the run, and nothing remains of the hidden folder. -/
theorem produce_ends {r : Except CommandFailure Nat}
    (ran : on (produce path document mode amount folder copy) p t = ⟨r, p', t'⟩) :
    p'.printed = p.printed ∧
      ((∃ e, resultsOf path document mode amount copy p.generator = .error e ∧
          r = .error (.template e) ∧ t' = t) ∨
        Ends (resultsOf path document mode amount copy p.generator) folder (enclosed folder t) r
          t') := by
  rw [produce, on_bind] at ran
  rw [resultsOf]
  cases split : Template.ofDocument document with
  | error fault =>
    rw [split] at ran
    cases ran
    exact ⟨rfl, .inl ⟨_, rfl, rfl, rfl⟩⟩
  | ok template =>
    rw [split] at ran
    change on (withHidden folder _) p t = _ at ran
    obtain ⟨rfl, rfl, e, rfl, blame⟩ | ⟨hidden, above, number, u, u', free, start, filled, rfl⟩ :=
      withHidden_cases ran
    · exact ⟨rfl, .inr (.stopped blame)⟩
    · obtain ⟨printed, left, s, ends, rest⟩ := fill_ends start free filled
      rw [rest.aside.removeFolder rest.placed]
      exact ⟨printed, .inr ends⟩

end

end Run

end ArenaVariations
