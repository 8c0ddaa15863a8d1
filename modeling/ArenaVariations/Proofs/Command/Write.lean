import ArenaVariations.Proofs.Command.Staging

/-!
# Writing the variations of a template

The steps of a command for a single template, taken apart once. Everything that depends on the
template shows while the tree is still as it was, except that the folder that the output folder
lies in may be there already. Only after that the output folder is created and filled, and from
then on a failure is one of the file system.
-/

namespace ArenaVariations

open ArenaVariations.Random (Generator)

namespace Run

section

variable {path folder : Path} {document : Node} {mode : Mode} {amount : Nat} {copy : Bool}
  {p p' : Progress} {t t' : Files}

/-- The results of a template are those that were collected. -/
theorem resultsOf_eq_ok {results : Results} {g : Generator}
    (decided : resultsOf path document mode amount copy g = .ok results) :
    ∃ template text vs texts, Template.ofDocument document = .ok template ∧
      copyText copy document = .ok text ∧
      (((Production.ofTemplate template mode amount).collect amount).run.run g).1 = .ok vs ∧
      List.Forall₂ (fun v text => v.node.toYaml = .ok text) vs texts ∧
      results = ⟨Results.filesOf (Output.stem path) text vs texts, vs.length⟩ := by
  rw [resultsOf] at decided
  cases split : Template.ofDocument document with
  | error fault =>
    rw [split] at decided
    cases decided
  | ok template =>
    rw [split] at decided
    obtain ⟨text, copied, decided⟩ := bind_eq_ok.mp decided
    obtain ⟨entries, rendered, same⟩ := bind_eq_ok.mp decided
    obtain rfl := pure_eq_ok.mp same
    obtain ⟨vs, collected, written⟩ := Production.collect_of_rendered rendered
    obtain ⟨texts, each, same⟩ := Results.ofEntries_of_ofVariationsFrom text written
    exact ⟨template, text, vs, texts, rfl, copied, collected, each, same⟩

/-- If the variations of a template are written, they are those that were collected, and each result
stands in the output folder. Everything else is as it was when that had been created. -/
theorem produce_eq_ok {n : Nat}
    (done : on (produce path document mode amount folder copy) p t = ⟨.ok n, p', t'⟩) :
    ∃ template text vs texts place, Template.ofDocument document = .ok template ∧
      copyText copy document = .ok text ∧
      (((Production.ofTemplate template mode amount).collect amount).run.run p.generator).1 =
        .ok vs ∧
      List.Forall₂ (fun v text => v.node.toYaml = .ok text) vs texts ∧ n = vs.length ∧
      folder.destination? = some place ∧
      (∀ file ∈ Results.filesOf (Output.stem path) text vs texts,
        t'.standing? (place ++ [file.1]) = some (.file file.2.toUTF8)) ∧
      ∀ q, (∀ file ∈ Results.filesOf (Output.stem path) text vs texts, q ≠ place ++ [file.1]) →
        t'.standing? q = ((enclosed folder t).createFolders folder).2.standing? q := by
  obtain ⟨-, ⟨e, -, failed, -⟩ | ends⟩ := produce_ends done
  · cases failed
  · generalize written : (Except.ok n : Except CommandFailure Nat) = r at ends
    cases ends with
    | failed | stopped | interrupted => cases written
    | @written results q _ decided stored =>
      obtain ⟨template, text, vs, texts, split, copied, collected, each, rfl⟩ :=
        resultsOf_eq_ok decided
      cases written
      have named : ∀ file ∈ Results.filesOf (Output.stem path) text vs texts, Path.IsName file.1 :=
        fun _ => Results.isName_of_mem_filesOf (Output.slash_not_mem_stem path)
      have index := Results.mem_filesOf_of_index (Output.stem path) text vs texts
      obtain ⟨place, leads⟩ : ∃ place, folder.destination? = some place := by
        obtain ⟨file, files, split⟩ := List.exists_cons_of_ne_nil (List.ne_nil_of_mem index)
        rw [split] at stored named
        exact exists_destination_of_writeAllTo (named file List.mem_cons_self) stored
      obtain ⟨there, others⟩ := writeAllTo_eq_ok named
        (Results.nodup_filesOf _ text each.length_eq) stored leads
      exact ⟨template, text, vs, texts, place, split, copied, collected, each, rfl, leads, there,
        others⟩

/-- If writing the variations of a template fails, the template is to blame, and nothing but the
folder that the output folder lies in was created; or the file system is. -/
theorem produce_eq_error {e : CommandFailure}
    (failed : on (produce path document mode amount folder copy) p t = ⟨.error e, p', t'⟩) :
    (∃ error, e = .template error) ∧ (t' = t ∨ t' = enclosed folder t) ∨ OfFiles e := by
  obtain ⟨-, ⟨error, -, same, rfl⟩ | ends⟩ := produce_ends failed
  · cases same
    exact .inl ⟨⟨error, rfl⟩, .inl rfl⟩
  · cases ends with
    | failed decided => exact .inl ⟨⟨_, rfl⟩, .inr rfl⟩
    | stopped blame => exact .inr blame
    | interrupted decided part stored blame => exact .inr blame

end

end Run

namespace Results

/-- Names of results never collide. The number and the labels that the name of a variation shows
can be read back from it, whatever the stem is, and two variations share a name only if they share
these. No variation is named like the index or the copy of the template, and behind the stem
nothing stands that could lead into another folder. So results of one template have different
names, and if they are written into a folder, each of them is found there afterwards. -/
theorem names_never_collide (stem : String) :
    (∀ i labels, Output.readName stem (Output.variationName stem i labels) =
      (i, Output.shownLabels labels)) ∧
    (∀ i j labels labels',
      Output.variationName stem i labels = Output.variationName stem j labels' ↔
        i = j ∧ Output.shownLabels labels = Output.shownLabels labels') ∧
    (∀ i labels, Output.variationName stem i labels ≠ templateCopyName ∧
      Output.variationName stem i labels ≠ labelIndexName ∧
      ∃ rest, Output.variationName stem i labels = stem ++ rest ∧
        ∀ c ∈ rest.toList, c.isAlphanum = true ∨ c = '.' ∨ c = '-' ∨ c = '_') ∧
    ∀ path document mode amount folder copy p t n, Output.stem path = stem →
      (Run.on (Run.produce path document mode amount folder copy) p t).result = .ok n →
        ∃ text vs texts place, Option.isSome text = copy ∧ List.length vs = n ∧
          List.Forall₂ (fun v text => v.node.toYaml = .ok text) vs texts ∧
          ((filesOf stem text vs texts).map Prod.fst).Nodup ∧
          Path.destination? folder = some place ∧
          ∀ file ∈ filesOf stem text vs texts,
            (Run.on (Run.produce path document mode amount folder copy) p t).tree.standing?
              (place ++ [file.1]) = some (.file file.2.toUTF8) := by
  refine ⟨Output.readName_variationName stem, fun i j labels labels' => ?_, fun i labels => ?_,
    fun path document mode amount folder copy p t n same done => ?_⟩
  · constructor
    · intro same
      have read := congrArg (Output.readName stem) same
      rw [Output.readName_variationName, Output.readName_variationName] at read
      exact Prod.mk.inj read
    · rintro ⟨rfl, shown⟩
      rw [← String.toList_inj, Output.toList_variationName, Output.toList_variationName,
        Output.shownParts, Output.shownParts, shown]
  · obtain ⟨rest, split, safe⟩ := Output.exists_rest stem i labels
    exact ⟨Output.variationName_ne_templateCopyName stem i labels,
      Output.variationName_ne_labelIndexName stem i labels, rest, split, safe⟩
  · subst same
    generalize ran : Run.on (Run.produce path document mode amount folder copy) p t = ended
      at done ⊢
    obtain ⟨result, p', t'⟩ := ended
    obtain rfl : result = .ok n := done
    obtain ⟨_, text, vs, texts, place, -, copied, -, each, rfl, leads, there, -⟩ :=
      Run.produce_eq_ok ran
    exact ⟨text, vs, texts, place, Run.isSome_of_copyText copied, rfl, each,
      nodup_filesOf _ text each.length_eq, leads, there⟩

/-- A template with labels that look like the end of a number, and like a way to another folder. -/
def lookalikes : Node :=
  .sequence [.labelledChoice [(.int 1, "2"), (.int 2, "")],
    .labelledChoice [(.int 3, "../x"), (.int 4, "..-x")]]

/-- Write the variations of the lookalikes to a new folder. -/
def writeLookalikes : Run.End Nat :=
  (Run.produce ⟨"a_00001.yaml"⟩ lookalikes .exhaustive 4 ⟨"out"⟩ true).on ⟨.ofSeed 0, ""⟩
    (.folder [])

theorem eq_ok_of_toOption {ε α : Type} {result : Except ε α} {a : α}
    (h : result.toOption = some a) : result = .ok a := by
  cases result with
  | error e => cases h
  | ok b => exact congrArg Except.ok (Option.some.inj h)

theorem names_never_collide_lookalikes :
    Output.stem ⟨"a_00001.yaml"⟩ = "a_00001" ∧ writeLookalikes.result = .ok 4 ∧
      ∃ text vs texts, Option.isSome text = true ∧ List.length vs = 4 ∧
        List.Forall₂ (fun v text => v.node.toYaml = .ok text) vs texts ∧
        ((filesOf "a_00001" text vs texts).map Prod.fst).Nodup ∧
        ∀ file ∈ filesOf "a_00001" text vs texts,
          writeLookalikes.tree.standing? (["out"] ++ [file.1]) = some (.file file.2.toUTF8) := by
  have stem : Output.stem ⟨"a_00001.yaml"⟩ = "a_00001" := by decide +kernel
  have computed : writeLookalikes.result.toOption = some 4 := by decide +kernel
  have done := eq_ok_of_toOption computed
  obtain ⟨text, vs, texts, place, copied, length, each, distinct, leads, there⟩ :=
    (names_never_collide "a_00001").2.2.2 _ _ _ _ _ _ _ _ _ stem done
  obtain rfl : ["out"] = place := Option.some.inj leads
  exact ⟨stem, done, text, vs, texts, copied, length, each, distinct, there⟩

end Results

namespace Run

section

variable {path folder : Path} {document : Node} {mode : Mode} {amount : Nat} {copy : Bool}
  {p p' : Progress} {t t' : Files}

theorem on_expand (path : Path) (request : Request) (options : WriteOptions) (folder : Path)
    (p : Progress) (t : Files) :
    on (expand path request options folder) p t =
      match t.template path with
      | .error e => ⟨.error (.template (e.annotate path.text)), p, t⟩
      | .ok document =>
        match document.explain with
        | .error e => ⟨.error (.template (e.annotate path.text)), p, t⟩
        | .ok explanation =>
          match plan request options.limits document.count with
          | none => ⟨.ok ⟨document.count, explanation, none⟩, p, t⟩
          | some (mode, amount) =>
            on (do
              let written ← produce path document mode amount folder options.copyTemplate
              return ⟨document.count, explanation, some written⟩) p t := by
  rw [expand, on_bind, on_read]
  cases t.template path with
  | error e => rfl
  | ok document =>
    simp only
    rw [on_bind, on_ofTemplate_ok]
    simp only
    rw [on_bind]
    cases document.explain with
    | error e => rfl
    | ok explanation =>
      simp only [on_ofTemplate_ok]
      cases plan request options.limits document.count with
      | none => rfl
      | some planned => rfl

/-- The folder that the variations of a single template are written to. -/
def target (path : Path) (options : WriteOptions) : Path :=
  options.output.getD (Output.defaultFolder path)

theorem on_write (path : Path) (request : Request) (options : WriteOptions) (p : Progress)
    (t : Files) :
    on (write path request options) p t =
      if t.hasFolder path then ⟨.error (.isFolder path), p, t⟩
      else
        match on (expand path request options (target path options)) p t with
        | ⟨.error e, p, t⟩ => ⟨.error e, p, t⟩
        | ⟨.ok expansion, p, t⟩ =>
          match expansion.written with
          | some written =>
            ⟨.ok (), { p with
              printed := p.printed ++ Report.single expansion.count expansion.explanation ++
                s!"Wrote {written} variation(s) to {(target path options).text}\n" }, t⟩
          | none =>
            ⟨.error (.tooMany expansion.count options.limits.maxVariations), { p with
              printed :=
                p.printed ++ Report.single expansion.count expansion.explanation }, t⟩ := by
  have first : (Workspace.isFolder path : StateM Files _).run t = (t.hasFolder path, t) := rfl
  rw [write, on_bind, on_inWorkspace, first]
  cases t.hasFolder path with
  | true => rfl
  | false =>
    rcases ran : on (expand path request options (target path options)) p t with ⟨result, q, s⟩
    rw [target] at ran
    simp only [Bool.false_eq_true, if_false]
    rw [on_bind, ran]
    cases result with
    | error e => rfl
    | ok expansion =>
      simp only
      rw [on_bind, on_print]
      cases expansion.written <;> rfl

variable {request : Request} {options : WriteOptions}

theorem expand_eq_ok {expansion : Expansion}
    (done : on (expand path request options folder) p t = ⟨.ok expansion, p', t'⟩) :
    ∃ document explanation, t.template path = .ok document ∧
      document.explain = .ok explanation ∧ expansion.count = document.count ∧
      (plan request options.limits document.count = none ∧ expansion.written = none ∧ t' = t ∨
        ∃ mode amount n, plan request options.limits document.count = some (mode, amount) ∧
          expansion.written = some n ∧
          on (produce path document mode amount folder options.copyTemplate) p t =
            ⟨.ok n, p', t'⟩) := by
  rw [on_expand] at done
  cases read : t.template path with
  | error e =>
    rw [read] at done
    cases done
  | ok document =>
    simp only [read] at done
    cases explained : document.explain with
    | error e =>
      rw [explained] at done
      cases done
    | ok explanation =>
      simp only [explained] at done
      refine ⟨document, explanation, rfl, explained, ?_⟩
      cases planned : plan request options.limits document.count with
      | none =>
        rw [planned] at done
        cases done
        exact ⟨rfl, .inl ⟨rfl, rfl, rfl⟩⟩
      | some both =>
        obtain ⟨mode, amount⟩ := both
        simp only [planned] at done
        obtain ⟨n, q, s, produced, last⟩ := on_bind_ok.mp done
        cases last
        exact ⟨rfl, .inr ⟨mode, amount, n, rfl, rfl, produced⟩⟩

theorem expand_eq_error {e : CommandFailure}
    (failed : on (expand path request options folder) p t = ⟨.error e, p', t'⟩) :
    (∃ error, e = .template error) ∧ (t' = t ∨ t' = enclosed folder t) ∨ OfFiles e := by
  rw [on_expand] at failed
  cases read : t.template path with
  | error error =>
    rw [read] at failed
    cases failed
    exact .inl ⟨⟨_, rfl⟩, .inl rfl⟩
  | ok document =>
    simp only [read] at failed
    cases explained : document.explain with
    | error error =>
      rw [explained] at failed
      cases failed
      exact .inl ⟨⟨_, rfl⟩, .inl rfl⟩
    | ok explanation =>
      simp only [explained] at failed
      cases planned : plan request options.limits document.count with
      | none =>
        rw [planned] at failed
        cases failed
      | some both =>
        obtain ⟨mode, amount⟩ := both
        simp only [planned] at failed
        obtain failed | ⟨n, q, s, -, last⟩ := on_bind_error.mp failed
        · exact produce_eq_error failed
        · cases last

/-- A command succeeds if the variations of its template are written. -/
theorem write_eq_ok {u : Unit}
    (done : on (write path request options) p t = ⟨.ok u, p', t'⟩) :
    ∃ document mode amount n q, t.template path = .ok document ∧
      plan request options.limits document.count = some (mode, amount) ∧
      on (produce path document mode amount (target path options) options.copyTemplate) p t =
        ⟨.ok n, q, t'⟩ := by
  rw [on_write] at done
  split at done
  · cases done
  · rcases ran : on (expand path request options (target path options)) p t with ⟨result, q, s⟩
    rw [ran] at done
    cases result with
    | error e => cases done
    | ok expansion =>
      obtain ⟨document, explanation, read, -, -, ⟨-, none, -⟩ | ⟨mode, amount, n, planned, some,
        produced⟩⟩ := expand_eq_ok ran
      · simp only [none] at done
        cases done
      · simp only [some] at done
        cases done
        exact ⟨document, mode, amount, n, q, read, planned, produced⟩

/-- The failures that a template is to blame for. -/
def OfTemplate : CommandFailure → Prop
  | .template _ | .tooMany _ _ => True
  | _ => False

/-- If a command fails because of its template, nothing was written, and only the folder that the
output folder lies in may have been created. -/
theorem write_eq_error {e : CommandFailure} (blame : OfTemplate e)
    (failed : on (write path request options) p t = ⟨.error e, p', t'⟩) :
    t' = t ∨ t' = enclosed (target path options) t := by
  rw [on_write] at failed
  split at failed
  · cases failed
    exact blame.elim
  · rcases ran : on (expand path request options (target path options)) p t with ⟨result, q, s⟩
    rw [ran] at failed
    cases result with
    | error e =>
      cases failed
      obtain ⟨-, same⟩ | files := expand_eq_error ran
      · exact same
      · cases e <;> first | exact files.elim | exact blame.elim
    | ok expansion =>
      obtain ⟨document, explanation, -, -, -, ⟨-, none, same⟩ | ⟨mode, amount, n, -, some, -⟩⟩ :=
        expand_eq_ok ran
      · simp only [none] at failed
        cases failed
        exact .inl same
      · simp only [some] at failed
        cases failed

end

end Run

namespace Command

/-- How a command ends on a folder tree. -/
def attempt (c : Command) (t : Files) : Run.End Unit :=
  (Run.ofCommand c).on ⟨.ofSeed c.seed, ""⟩ t

/-- A command for a single template ends as its run does. -/
theorem ended_of_result {path : Path} {request : Request} {options : WriteOptions} {t : Files}
    {result : Except CommandFailure Unit}
    (ended : ((write path request options).attempt t).result = result) :
    Run.on (Run.write path request options) ⟨.ofSeed options.limits.seed, ""⟩ t =
      ⟨result, ((write path request options).attempt t).progress,
        ((write path request options).attempt t).tree⟩ := by
  rw [← ended]
  rfl

/-- What a command leaves is told by how it ends. -/
theorem run_eq (c : Command) (t : Files) :
    (c.run (m := StateM Files)).run t =
      (match (c.attempt t).result with
        | .ok () => ⟨0, (c.attempt t).progress.printed, ""⟩
        | .error failure => ⟨1, (c.attempt t).progress.printed, failure.report⟩,
        (c.attempt t).tree) := by
  rw [run, StateT.run_bind]
  rfl

end Command

end ArenaVariations
