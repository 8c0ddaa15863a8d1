import ArenaVariations.Proofs.Command.Write
import ArenaVariations.Proofs.Command.Failure

/-!
# What a command leaves behind

A command for a single template either refuses it, which is decided before anything is written, or
writes what was asked for: as many variations as that are, each of them under its name, an index
with a row for each, and a copy of the template if there is to be one. Nothing else changes, except
for folders on the way to the output folder that were missing.
-/

namespace ArenaVariations

open ArenaVariations.Random (Generator)

/-- How the variations are picked that a request asks for. -/
def Request.mode : Request → Mode
  | .sample _ => .sample
  | .generate _ => .exhaustive

/-- The template at a path is a text file that can be read. -/
theorem FileTree.template_eq_ok {t : Files} {path : Path} {document : Node}
    (accepted : t.template path = .ok document) :
    ∃ bytes text, t.find path = .ok (.file bytes) ∧ Node.parse text path.text = .ok document := by
  rw [template] at accepted
  cases read : t.readText path with
  | error problem =>
    rw [read] at accepted
    cases accepted
  | ok text =>
    rw [read] at accepted
    obtain ⟨found, there, valid⟩ := bind_eq_ok.mp read
    cases found with
    | folder => cases valid
    | file bytes => exact ⟨bytes, text, there, accepted⟩

namespace Run

variable {path : Path} {document : Node} {request : Request} {options : WriteOptions}
  {p p' : Progress} {t t' : Files}

theorem plan_eq_none_iff {limits : Limits} {count : Nat} :
    plan request limits count = none ↔
      request = .generate none ∧ limits.maxVariations < count := by
  cases request with
  | sample amount => simp [plan]
  | generate head => cases head <;> simp [plan, Limits.allows]

/-- What is planned for a template that is not refused. -/
theorem plan_eq_some {limits : Limits} {count : Nat} {mode : Mode} {amount : Nat}
    (planned : plan request limits count = some (mode, amount)) :
    mode = request.mode ∧ (∀ n, request = .sample n → amount = n) ∧
      ∀ head, request = .generate head → amount = min (2 ^ 64 - 1)
        (min (min count limits.maxVariations) (head.getD limits.maxVariations)) := by
  cases request with
  | sample n =>
    cases planned
    refine ⟨rfl, fun k same => ?_, fun head other => ?_⟩
    · cases same
      rfl
    · cases other
  | generate head =>
    rw [plan] at planned
    split at planned
    · cases planned
    · cases planned
      refine ⟨rfl, fun k other => ?_, fun head' same => ?_⟩
      · cases other
      · cases same
        cases head with
        | none => rw [Option.getD_none, Nat.min_assoc, Nat.min_self]; rfl
        | some head => rfl

/-- A template is refused before anything is written. -/
theorem on_write_refused (accepted : t.template path = .ok document)
    (refused : plan request options.limits document.count = none) :
    ∃ q, on (write path request options) p t =
      ⟨.error (.tooMany document.count options.limits.maxVariations), q, t⟩ := by
  obtain ⟨bytes, text, there, parsed⟩ := FileTree.template_eq_ok accepted
  obtain ⟨explanation, explained⟩ :=
    Node.exists_explain (Node.readable_of_parse parsed).freeOf_placeholder
  have file : t.hasFolder path = false := by rw [FileTree.hasFolder, there]
  rw [on_write, file, if_neg Bool.false_ne_true, on_expand]
  simp only [accepted, explained, refused]
  exact ⟨_, rfl⟩

/-- Nothing but a count that is too large leads to a refusal. -/
theorem refused_of_tooMany {count limit : Nat} (accepted : t.template path = .ok document)
    (failed : on (write path request options) p t = ⟨.error (.tooMany count limit), p', t'⟩) :
    plan request options.limits document.count = none := by
  rw [on_write] at failed
  split at failed
  · cases failed
  · rcases ran : on (expand path request options (target path options)) p t with ⟨result, q, s⟩
    rw [ran] at failed
    cases result with
    | error e =>
      cases failed
      obtain ⟨⟨error, other⟩, -⟩ | files := expand_eq_error ran
      · cases other
      · exact files.elim
    | ok expansion =>
      obtain ⟨document', explanation, read, -, -, ⟨planned, -, -⟩ | ⟨_, _, n, -, some, -⟩⟩ :=
        expand_eq_ok ran
      · obtain rfl := Except.ok.inj (accepted.symm.trans read)
        exact planned
      · simp only [some] at failed
        cases failed

/-- What has been left behind when variations of a template were written to a place. -/
structure Delivered (path : Path) (request : Request) (options : WriteOptions) (document : Node)
    (vs : List Variation) (place : List String) (t t' : Files) : Prop where
  /-- As many samples as were asked for. -/
  sampled : ∀ n, request = .sample n → vs.length = n
  /-- All variations that the template counts, up to the limits. A run counts in 64 bits. -/
  generated : ∀ head, request = .generate head → vs.length = min (2 ^ 64 - 1)
    (min (min document.count options.limits.maxVariations)
      (head.getD options.limits.maxVariations))
  /-- The variations are the items of the stream that is generated from the template. -/
  items : ∃ template, Template.ofDocument document = .ok template ∧
    ((Draw.pulls Production.next vs.length (.ofTemplate template request.mode vs.length)).run
      (.ofSeed options.limits.seed)).1 = vs.map Pull.item
  /-- The place is the one that the path of the output folder leads to. -/
  leads : (target path options).destination? = some place
  /-- Every variation stands under its name. -/
  stored : ∀ i v, vs[i]? = some v → ∃ text, v.node.toYaml = .ok text ∧
    t'.standing? (place ++ [Output.variationName (Output.stem path) (i + 1) v.labels]) =
      some (.file text.toUTF8)
  /-- The names tell the variations apart, and from the other results. -/
  apart : ((Results.rows (Output.stem path) vs).map Prod.fst ++
    [labelIndexName, templateCopyName]).Nodup
  /-- The index has a row for every variation: its name and its labels. -/
  listed : ∃ text, t'.standing? (place ++ [labelIndexName]) = some (.file text.toUTF8) ∧
    ∀ i : Nat, (LabelIndex.read text)[i]? = vs[i]?.map fun v =>
      Output.variationName (Output.stem path) (i + 1) v.labels :: v.labels
  /-- The template is copied if that is asked for. -/
  copied : options.copyTemplate = true → ∃ text, document.toYaml = .ok text ∧
    t'.standing? (place ++ [templateCopyName]) = some (.file text.toUTF8)
  /-- Everything else is as before, but for folders on the way that were missing. -/
  others : ∀ q, (∀ i v, vs[i]? = some v →
      q ≠ place ++ [Output.variationName (Output.stem path) (i + 1) v.labels]) →
    q ≠ place ++ [labelIndexName] →
    (options.copyTemplate = true → q ≠ place ++ [templateCopyName]) →
    t'.standing? q = t.standing? q ∨ FileTree.Passed [] (target path options).names q ∧
      t.standing? q = none ∧ t'.standing? q = some .folder

/-- The output folder is created on the way that its path takes. -/
theorem created_grown (folder : Path) (t : Files) :
    FileTree.Grown (FileTree.Passed [] folder.names) t
      ((enclosed folder t).createFolders folder).2 := by
  refine .trans ((t.createFolders_grown (enclosing folder)).mono ?_)
    ((enclosed folder t).createFolders_grown folder)
  rintro q ⟨start, front, led⟩
  rw [names_enclosing] at front
  exact ⟨start, front.trans (List.dropLast_prefix _), led⟩

/-- As many variations are collected as a run has planned. -/
theorem length_of_collected {template : Template} {amount : Nat} {g : Generator}
    {vs : List Variation} (readable : document.Readable)
    (split : Template.ofDocument document = .ok template)
    (generated : ∀ head, request = .generate head → amount = min (2 ^ 64 - 1)
      (min (min document.count options.limits.maxVariations)
        (head.getD options.limits.maxVariations)))
    (collected : (((Production.ofTemplate template request.mode amount).collect amount).run.run
      g).1 = .ok vs) : vs.length = amount := by
  cases request with
  | sample =>
    exact Production.length_of_collect_sample (p := .ofTemplate template .sample amount) rfl rfl
      collected
  | generate head =>
    apply Production.length_of_collect_exhaustive (Template.readable_body readable split).1 _
      collected
    rw [generated head rfl, Template.count_body readable split]
    omega

/-- A command that succeeds leaves behind what was asked for. -/
theorem exists_delivered {u : Unit} (accepted : t.template path = .ok document)
    (seeded : p.generator = .ofSeed options.limits.seed)
    (done : on (write path request options) p t = ⟨.ok u, p', t'⟩) :
    ∃ vs place, Delivered path request options document vs place t t' := by
  obtain ⟨document', mode, amount, n, q, read, planned, produced⟩ := write_eq_ok done
  obtain rfl := Except.ok.inj (accepted.symm.trans read)
  obtain ⟨rfl, sampled, generated⟩ := plan_eq_some planned
  obtain ⟨template, text, vs, texts, place, split, copied, collected, each, -, leads, there,
    others⟩ := produce_eq_ok produced
  obtain ⟨_, _, _, parsed⟩ := FileTree.template_eq_ok accepted
  have readable := Node.readable_of_parse parsed
  obtain rfl : vs.length = amount := length_of_collected readable split generated collected
  have index := Results.mem_filesOf_of_index (Output.stem path) text vs texts
  refine ⟨vs, place, sampled, generated, ⟨template, split, ?_⟩, leads, ?_, ?_, ?_, ?_, ?_⟩
  · rw [← seeded, (Production.run_pulls_of_collect collected).2, if_neg (Nat.lt_irrefl _),
      List.append_nil]
  · intro i v here
    obtain ⟨bound, rfl⟩ := List.getElem?_eq_some_iff.mp here
    have bound' : i < texts.length := each.length_eq ▸ bound
    have mem := Results.mem_filesOf_of_variation (Output.stem path) text here
      (List.getElem?_eq_getElem bound')
    exact ⟨texts[i], each.get bound bound', there _ mem⟩
  · have names := Results.nodup_filesOf (Output.stem path) (some "") each.length_eq
    rw [Results.map_fst_filesOf each.length_eq] at names
    exact List.nodup_append_comm.mp names
  · refine ⟨_, there _ index, fun i => ?_⟩
    rw [LabelIndex.read_rows, List.getElem?_map, Results.getElem?_rows, Option.map_map]
    rfl
  · intro copying
    rw [copyText, if_pos copying] at copied
    obtain ⟨copy, written, rfl⟩ := map_eq_ok.mp copied
    exact ⟨copy, written, there _ (Results.mem_filesOf_of_copy ..)⟩
  · intro q unnamed unlisted uncopied
    rw [others q]
    · exact created_grown (target path options) t q
    · intro file mem here
      obtain ⟨i, v, found, same⟩ | same | ⟨given, same⟩ := Results.name_of_mem_filesOf mem
      · exact unnamed i v found (same ▸ here)
      · exact unlisted (same ▸ here)
      · exact uncopied ((isSome_of_copyText copied).symm.trans given) (same ▸ here)

end Run

namespace Command

/-- A command for a single template that can be read refuses it if and only if everything is asked
for and that is too much, and then it changes nothing. If it ends well, it leaves behind what was
asked for. An output folder above the top of the tree cannot be reached, so that a command with one
does not end well. -/
theorem write_delivers {path : Path} {request : Request} {options : WriteOptions} {t : Files}
    {document : Node} (accepted : t.template path = .ok document) :
    ((∃ count limit, ((write path request options).attempt t).result =
        .error (.tooMany count limit)) ↔
      request = .generate none ∧ options.limits.maxVariations < document.count) ∧
    ((∃ count limit, ((write path request options).attempt t).result =
        .error (.tooMany count limit)) →
      (((write path request options).run (m := StateM Files)).run t).1.exit = 1 ∧
        (((write path request options).run (m := StateM Files)).run t).2 = t) ∧
    ((((write path request options).run (m := StateM Files)).run t).1.exit = 0 →
      ∃ vs place, Run.Delivered path request options document vs place t
        (((write path request options).run (m := StateM Files)).run t).2) := by
  have refused_iff : (∃ count limit, ((write path request options).attempt t).result =
      .error (.tooMany count limit)) ↔ Run.plan request options.limits document.count = none := by
    constructor
    · rintro ⟨count, limit, failed⟩
      exact Run.refused_of_tooMany accepted (ended_of_result failed)
    · intro refused
      obtain ⟨q, ended⟩ := Run.on_write_refused accepted refused
      exact ⟨_, _, congrArg Run.End.result ended⟩
  refine ⟨refused_iff.trans Run.plan_eq_none_iff, ?_, ?_⟩
  · intro refusal
    obtain ⟨q, ended⟩ := Run.on_write_refused accepted (refused_iff.mp refusal)
    obtain ⟨count, limit, failed⟩ := refusal
    rw [run_eq, failed]
    exact ⟨rfl, congrArg Run.End.tree ended⟩
  · intro succeeded
    rw [run_eq] at succeeded ⊢
    cases ended : ((write path request options).attempt t).result with
    | error e =>
      rw [ended] at succeeded
      cases succeeded
    | ok u => exact Run.exists_delivered accepted rfl (ended_of_result ended)

/-- A folder with a template that has two variations. -/
def twoVariations : Files :=
  .folder [("t.yaml", .file "- !ProcList [1, 2]\n".toUTF8)]

theorem write_delivers_twoVariations :
    ∃ document, twoVariations.template ⟨"t.yaml"⟩ = .ok document ∧
      (∃ vs place, Run.Delivered ⟨"t.yaml"⟩ (.generate none) toNewFolder document vs place
        twoVariations (((write ⟨"t.yaml"⟩ (.generate none) toNewFolder).run (m := StateM Files)).run
          twoVariations).2) ∧
      ¬ ∃ count limit, ((write ⟨"t.yaml"⟩ (.generate none) toNewFolder).attempt
        twoVariations).result = .error (.tooMany count limit) := by
  have read : ((twoVariations.template ⟨"t.yaml"⟩).toOption.map Node.count) = some 2 := by
    decide +kernel
  have succeeded : (((write ⟨"t.yaml"⟩ (.generate none) toNewFolder).run (m := StateM Files)).run
      twoVariations).1.exit = 0 := by
    decide +kernel
  cases accepted : twoVariations.template ⟨"t.yaml"⟩ with
  | error e =>
    rw [accepted] at read
    cases read
  | ok document =>
    rw [accepted] at read
    obtain ⟨refused, -, delivered⟩ :=
      @write_delivers ⟨"t.yaml"⟩ (.generate none) toNewFolder twoVariations document accepted
    refine ⟨document, rfl, delivered succeeded, ?_⟩
    rw [refused, Option.some.inj read]
    rintro ⟨-, few⟩
    exact absurd few (by decide)

end Command

end ArenaVariations
