import ArenaVariations.Command.Run
import ArenaVariations.Proofs.Node.Checked

/-!
# Runs on a folder tree

A run in the workspace that keeps everything in memory is a function: it takes what the run holds
and a folder tree to a result, to what the run holds then, and to the tree that it leaves. Each
primitive step says what it does to these, and a run is taken apart into its steps by `on_bind_ok`
and `on_bind_error`.
-/

namespace ArenaVariations

/-- The trees that commands work on. -/
abbrev Files := FileTree ByteArray

/-- The template at a path, or why there is none. -/
def FileTree.template (t : Files) (path : Path) : Except Error Node :=
  match t.readText path with
  | .ok text => Node.parse text path.text
  | .error problem => .error (.io path.text problem.message)

namespace Run

/-- How a part of a run ends. -/
structure End (α : Type) where
  result : Except CommandFailure α
  progress : Progress
  tree : Files

/-- Run a part of a run on a folder tree. -/
def on {α : Type} (r : Run (StateM Files) α) (p : Progress) (t : Files) : End α :=
  let out := (r.run.run p).run t
  ⟨out.1.1, out.1.2, out.2⟩

section

variable {α β : Type} {r : Run (StateM Files) α} {f : α → Run (StateM Files) β}
  {p p' : Progress} {t t' : Files}

@[simp] theorem on_pure (a : α) (p : Progress) (t : Files) :
    (pure a : Run (StateM Files) α).on p t = ⟨.ok a, p, t⟩ := rfl

@[simp] theorem on_throw (e : CommandFailure) (p : Progress) (t : Files) :
    (throw e : Run (StateM Files) α).on p t = ⟨.error e, p, t⟩ := rfl

@[simp] theorem on_inWorkspace (action : StateM Files α) (p : Progress) (t : Files) :
    (inWorkspace action : Run (StateM Files) α).on p t =
      ⟨.ok (action.run t).1, p, (action.run t).2⟩ := rfl

@[simp] theorem on_print (text : String) (p : Progress) (t : Files) :
    (print text : Run (StateM Files) Unit).on p t =
      ⟨.ok (), { p with printed := p.printed ++ text }, t⟩ := rfl

@[simp] theorem on_draw (d : Draw α) (p : Progress) (t : Files) :
    (draw d : Run (StateM Files) α).on p t =
      ⟨.ok (d.run p.generator).1, { p with generator := (d.run p.generator).2 }, t⟩ := rfl

/-- A part of a run that is attempted does not fail, whatever becomes of it. -/
theorem on_attempt (r : Run (StateM Files) α) (p : Progress) (t : Files) :
    on (ExceptT.lift r.run) p t = ⟨.ok (r.on p t).result, (r.on p t).progress, (r.on p t).tree⟩ :=
  rfl

theorem on_bind (r : Run (StateM Files) α) (f : α → Run (StateM Files) β) (p : Progress)
    (t : Files) :
    (r >>= f).on p t =
      match r.on p t with
      | ⟨.ok a, p, t⟩ => (f a).on p t
      | ⟨.error e, p, t⟩ => ⟨.error e, p, t⟩ := by
  rcases ran : (r.run.run p).run t with ⟨⟨result, q⟩, s⟩
  have first : r.on p t = ⟨result, q, s⟩ := by simp only [on, ran]
  have whole : (r >>= f).on p t =
      (let out := ((r >>= f).run.run p).run t; ⟨out.1.1, out.1.2, out.2⟩) := rfl
  rw [first, whole, ExceptT.run_bind, StateT.run_bind, StateT.run_bind, ran]
  cases result <;> rfl

/-- A run gives a result if its first part does and the rest does after it. -/
theorem on_bind_ok {b : β} :
    (r >>= f).on p t = ⟨.ok b, p', t'⟩ ↔
      ∃ a q s, r.on p t = ⟨.ok a, q, s⟩ ∧ (f a).on q s = ⟨.ok b, p', t'⟩ := by
  rw [on_bind]
  obtain ⟨result, q, s⟩ := r.on p t
  cases result with
  | error e => simp
  | ok a => simp

/-- A run fails if its first part does, or if the rest does after it. -/
theorem on_bind_error {e : CommandFailure} :
    (r >>= f).on p t = ⟨.error e, p', t'⟩ ↔
      r.on p t = ⟨.error e, p', t'⟩ ∨
        ∃ a q s, r.on p t = ⟨.ok a, q, s⟩ ∧ (f a).on q s = ⟨.error e, p', t'⟩ := by
  rw [on_bind]
  obtain ⟨result, q, s⟩ := r.on p t
  cases result with
  | error e => simp
  | ok a => simp

@[simp] theorem on_ofTemplate_ok (path : Path) (a : α) (p : Progress) (t : Files) :
    (ofTemplate path (.ok a) : Run (StateM Files) α).on p t = ⟨.ok a, p, t⟩ := rfl

@[simp] theorem on_ofTemplate_error (path : Path) (e : Error) (p : Progress) (t : Files) :
    (ofTemplate path (.error e) : Run (StateM Files) α).on p t =
      ⟨.error (.template (e.annotate path.text)), p, t⟩ := rfl

end

theorem on_read (path : Path) (p : Progress) (t : Files) :
    on (inWorkspace (read path)) p t = ⟨.ok (t.template path), p, t⟩ := by
  have step : (read path : StateM Files _).run t = (t.template path, t) := by
    have first : (Workspace.readText path : StateM Files _).run t = (t.readText path, t) := rfl
    rw [FileTree.template, read, StateT.run_bind, first]
    cases t.readText path <;> rfl
  rw [on_inWorkspace, step]

/-- What a run cannot go on without is done, or the run fails. -/
theorem on_require (action : StateM Files Bool) (failure : CommandFailure) (p : Progress)
    (t : Files) :
    on (require action failure) p t =
      ⟨if (action.run t).1 then .ok () else .error failure, p, (action.run t).2⟩ := by
  rw [require, on_bind, on_inWorkspace]
  cases (action.run t).1 <;> rfl

theorem on_createFolders (path : Path) (p : Progress) (t : Files) :
    on (createFolders path) p t =
      ⟨if (t.createFolders path).1 then .ok () else .error (.folderNotCreated path), p,
        (t.createFolders path).2⟩ :=
  on_require (Workspace.createFolders path) _ p t

theorem on_createFolders_eq_ok {path : Path} {p p' : Progress} {t t' : Files} {u : Unit} :
    on (createFolders path) p t = ⟨.ok u, p', t'⟩ ↔
      (t.createFolders path).1 = true ∧ p = p' ∧ (t.createFolders path).2 = t' := by
  rw [on_createFolders]
  cases (t.createFolders path).1 <;> simp

end Run

end ArenaVariations
