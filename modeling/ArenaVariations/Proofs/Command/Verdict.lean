import ArenaVariations.Proofs.Command.Delivery
import ArenaVariations.Proofs.Expansion.Silent
import ArenaVariations.Proofs.Files.Agreement

/-!
# What becomes of a template

In a bulk run a template is prepared before anything is written: what is read and the generator
decide whether it fails, is refused or has results. After that only the file system can come in
between, and then the run stops. So the verdict on a template, the line that is printed for it and
the files that are written for it are the same in any two runs that read the same and get past it,
if the generator does not matter; and it does not for an enumeration without restrictions.
-/

namespace ArenaVariations

open ArenaVariations.Random (Generator)

namespace Production

/-- Nothing is drawn to write out the variations of a quiet stream. -/
theorem Quiet.rendered {p : Production} (h : p.Quiet) (path : Path) (amount index : Nat) :
    (Production.rendered path amount index p).run.Silent := by
  induction amount generalizing index p with
  | zero => exact Draw.silent_pure _
  | succ amount ih =>
    obtain ⟨⟨pull, q⟩, stepped, quiet⟩ := h.next
    rw [rendered_succ, stepped, LawfulMonad.pure_bind]
    cases pull with
    | done => exact Draw.silent_pure _
    | failed e => exact Draw.silent_pure _
    | item v =>
      dsimp only
      cases Results.ofVariation (Output.stem path) index v with
      | error e => exact Draw.silent_pure _
      | ok entry => exact (ih quiet (index + 1)).map _

end Production

theorem Template.freeOf_body {document : Node} {template : Template} {rules : List Rule}
    (split : Template.ofDocument document = .ok template) (free : document.FreeOf rules) :
    template.body.FreeOf rules := by
  obtain ⟨-, same⟩ | ⟨id, names, children, position, rfl, -, body⟩ :=
    Template.body_cases_of_ofDocument split
  · rw [same]
    exact free
  · obtain ⟨root, below⟩ := Node.freeOf_iff.mp free
    rw [body]
    exact Node.freeOf_iff.mpr ⟨root, fun child mem => below child (List.mem_of_mem_eraseIdx mem)⟩

namespace Run

/-- A template of which nothing has been written yet. -/
structure Prepared where
  count : Nat
  explanation : String
  /-- The results, unless the template is refused. -/
  results : Option Results

/-- Prepare a template, as it was read. A failure names the template, unless only the library itself
can be to blame. -/
def prepare (path : Path) (read : Except Error Node) (request : Request) (options : WriteOptions)
    (g : Generator) : Except Error Prepared := do
  let document ← read.mapError (Error.annotate path.text)
  let explanation ← document.explain.mapError (Error.annotate path.text)
  match plan request options.limits document.count with
  | none => return ⟨document.count, explanation, none⟩
  | some (mode, amount) =>
    let results ← resultsOf path document mode amount options.copyTemplate g
    return ⟨document.count, explanation, some results⟩

/-- Without restrictions the generator does not matter to an enumeration. -/
theorem resultsOf_quiet {path : Path} {document : Node} (free : document.FreeOf [.restriction])
    (amount : Nat) (copy : Bool) (g g' : Generator) :
    resultsOf path document .exhaustive amount copy g =
      resultsOf path document .exhaustive amount copy g' := by
  rw [resultsOf, resultsOf]
  cases split : Template.ofDocument document with
  | error fault => rfl
  | ok template =>
    have quiet : (Production.ofTemplate template .exhaustive amount).Quiet :=
      ⟨rfl, Template.freeOf_body split free⟩
    obtain ⟨drawn, silent⟩ := quiet.rendered path amount 1
    change copyText copy document >>= _ = copyText copy document >>= _
    refine bind_congr fun text => ?_
    rw [silent]
    rfl

theorem prepare_quiet {path : Path} {read : Except Error Node}
    (free : ∀ document, read = .ok document → document.FreeOf [.restriction]) (head : Option Nat)
    (options : WriteOptions) (g g' : Generator) :
    prepare path read (.generate head) options g =
      prepare path read (.generate head) options g' := by
  cases read with
  | error e => rfl
  | ok document =>
    change document.explain.mapError _ >>= _ = document.explain.mapError _ >>= _
    refine bind_congr fun explanation => ?_
    cases planned : plan (.generate head) options.limits document.count with
    | none => rfl
    | some both =>
      obtain ⟨mode, amount⟩ := both
      obtain ⟨rfl, -⟩ := plan_eq_some planned
      change resultsOf path document .exhaustive amount options.copyTemplate g >>= _ =
        resultsOf path document .exhaustive amount options.copyTemplate g' >>= _
      rw [resultsOf_quiet (free document rfl) amount options.copyTemplate g g']

section

variable {path folder : Path} {document : Node} {mode : Mode} {amount : Nat} {copy : Bool}
  {request : Request} {options : WriteOptions} {p p' : Progress} {t t' : Files}
  {off : List String → Prop}

/-- How a template that was prepared comes to its end. -/
inductive Follows (off : List String → Prop) (path folder : Path) (t : Files) (printed : String) :
    Except Error Prepared → End Expansion → Prop where
  | stopped {prepared : Except Error Prepared} {e : CommandFailure} {p' : Progress} {t' : Files}
      (blame : OfFiles e) : Follows off path folder t printed prepared ⟨.error e, p', t'⟩
  | failed {e : Error} {p' : Progress} {t' : Files} (same : p'.printed = printed)
      (agree : FileTree.AgreeOff off t t') :
      Follows off path folder t printed (.error e)
        ⟨.error (.template e), p', t'⟩
  | refused {count : Nat} {explanation : String} {p' : Progress} {t' : Files}
      (same : p'.printed = printed) (agree : FileTree.AgreeOff off t t') :
      Follows off path folder t printed (.ok ⟨count, explanation, none⟩)
        ⟨.ok ⟨count, explanation, none⟩, p', t'⟩
  | written {count : Nat} {explanation : String} {results : Results} {p' q : Progress}
      {t' s : Files} (same : p'.printed = printed) (agree : FileTree.AgreeOff off t s)
      (stored : on (writeAllTo folder results.files) q s = ⟨.ok (), q, t'⟩) :
      Follows off path folder t printed (.ok ⟨count, explanation, some results⟩)
        ⟨.ok ⟨count, explanation, some results.written⟩, p', t'⟩

/-- Expanding a template is stopped by the file system, or follows what was prepared. -/
theorem expand_follows (off : List String → Prop) (path folder : Path) (request : Request)
    (options : WriteOptions) (p : Progress) (t : Files) :
    Follows off path folder t p.printed
      (prepare path (t.template path) request options p.generator)
      (on (expand path request options folder) p t) := by
  have same : FileTree.AgreeOff off t t := fun _ _ => rfl
  rw [on_expand]
  cases t.template path with
  | error e => exact .failed rfl same
  | ok document =>
    rw [prepare, Except.mapError, ok_bind]
    dsimp only
    cases document.explain with
    | error e => exact .failed rfl same
    | ok explanation =>
      rw [Except.mapError, ok_bind]
      dsimp only
      cases plan request options.limits document.count with
      | none => exact .refused rfl same
      | some both =>
        obtain ⟨mode, amount⟩ := both
        dsimp only
        rw [on_bind]
        rcases ran : on (produce path document mode amount folder options.copyTemplate) p t with
          ⟨r, p', t'⟩
        have around : FileTree.AgreeOff off t (enclosed folder t) := .of_createFolders off t _
        obtain ⟨printed, ⟨e, failed, rfl, rfl⟩ | ends⟩ := produce_ends ran
        · rw [failed]
          exact .failed printed same
        · cases ends with
          | failed decided =>
            rw [decided]
            exact .failed printed around
          | stopped blame | interrupted _ _ _ blame => exact .stopped blame
          | written decided stored =>
            rw [decided]
            exact .written printed (around.trans (.of_createFolders off _ folder)) stored

end

/-- What becomes of a template of a bulk run. -/
inductive Verdict where
  | written (count : Nat) (results : Results)
  | failed (label report : String)

namespace Verdict

/-- The line that is printed for a template. -/
def line (template : Path) : Verdict → String
  | written count results => s!"{template.text}\t{count}\t{results.written} written\n"
  | failed .. => ""

/-- The label of a failure. -/
def label? : Verdict → Option String
  | written .. => none
  | failed label _ => some label

/-- The verdict on a template that was prepared, unless the library itself is to blame. -/
def of? (template : Path) (limits : Limits) : Except Error Prepared → Option Verdict
  | .error e => (reportable? (.template e)).map fun (label, report) => failed label report
  | .ok ⟨count, explanation, none⟩ => some (failed "TooManyVariations"
      (refusalReport template count limits.maxVariations explanation))
  | .ok ⟨count, _, some results⟩ => some (written count results)

/-- The lines that are printed for templates, with the verdicts on them. -/
def lines (accounts : List (Path × Verdict)) : String :=
  String.join (accounts.map fun account => account.2.line account.1)

theorem lines_cons (account : Path × Verdict) (accounts : List (Path × Verdict)) :
    lines (account :: accounts) = account.2.line account.1 ++ lines accounts := by
  rw [lines, List.map_cons, String.join_cons, lines]

/-- The entries of the summary, for the templates that failed. -/
def entries (accounts : List (Path × Verdict)) : List (String × String) :=
  accounts.flatMap fun account => account.2.label?.toList.map fun label => (account.1.text, label)

/-- What a bulk run prints that comes to its end. -/
def output (accounts : List (Path × Verdict)) : String :=
  lines accounts ++ Report.summary accounts.length (entries accounts)

theorem output_eq {accounts : List (Path × Verdict)} {count : Nat} {printed : String}
    (length : accounts.length = count) (printed_eq : printed = "" ++ lines accounts) :
    printed ++ Report.summary count (entries accounts) = output accounts := by
  rw [printed_eq, String.empty_append, ← length, output]

/-- A verdict has been carried out: there were the same files at first, and then the results or the
report were written. -/
inductive Carried (off : List String → Prop) (root output template : Path) (flatten : Bool)
    (t t' : Files) : Verdict → Prop where
  | results {count : Nat} {results : Results} {q : Progress} {s : Files}
      (agree : FileTree.AgreeOff off t s)
      (stored : on (writeAllTo (Bulk.outputFolder root template output flatten) results.files) q s =
        ⟨.ok (), q, t'⟩) : Carried off root output template flatten t t' (.written count results)
  | report {label report : String} {q q' : Progress} {s : Files}
      (agree : FileTree.AgreeOff off t s)
      (stored : on (writeReport (Bulk.errorFolder root template output flatten)
        (Output.stem template) report) q s = ⟨.ok (), q', t'⟩) :
      Carried off root output template flatten t t' (.failed label report)

end Verdict

section

variable {folder : Path} {off : List String → Prop} {p p' q q' : Progress} {t t' u u' : Files}

/-- The same files can be written into two trees that agree. -/
theorem agree_writeAllTo {files : List (String × String)} (same : FileTree.AgreeOff off t u)
    (left : on (writeAllTo folder files) p t = ⟨.ok (), p', t'⟩)
    (right : on (writeAllTo folder files) q u = ⟨.ok (), q', u'⟩) :
    FileTree.AgreeOff off t' u' := by
  induction files generalizing t u with
  | nil =>
    cases left
    cases right
    exact same
  | cons file files ih =>
    rw [on_writeAllTo_cons] at left right
    split at left
    · next made =>
      split at right
      · next made' => exact ih (same.write (Prod.ext made rfl) (Prod.ext made' rfl)) left right
      · cases right
    · cases left

/-- A report that was written stands in a folder that was created before. -/
theorem writeReport_eq_ok {stem report : String}
    (ran : on (writeReport folder stem report) p t = ⟨.ok (), p', t'⟩) :
    p' = p ∧ (t.createFolders folder).2.write (folder.join ⟨stem ++ ".error.txt"⟩)
      (Text.trimEnd report ++ "\n").toUTF8 = (true, t') := by
  rw [writeReport] at ran
  obtain ⟨_, _, _, created, ran⟩ := on_bind_ok.mp ran
  obtain ⟨-, rfl, rfl⟩ := on_createFolders_eq_ok.mp created
  have run : (Workspace.writeText (folder.join ⟨stem ++ ".error.txt"⟩)
      (Text.trimEnd report ++ "\n") : StateM Files _).run (t.createFolders folder).2 =
    (t.createFolders folder).2.write (folder.join ⟨stem ++ ".error.txt"⟩)
      (Text.trimEnd report ++ "\n").toUTF8 := rfl
  rw [on_require, run] at ran
  rcases written : (t.createFolders folder).2.write (folder.join ⟨stem ++ ".error.txt"⟩)
    (Text.trimEnd report ++ "\n").toUTF8 with ⟨done, s⟩
  rw [written] at ran
  cases done with
  | false => cases ran
  | true =>
    cases ran
    exact ⟨rfl, rfl⟩

/-- A failed template is reported, and its label is what the run goes on with. -/
theorem report_eq_ok {stem report label : String} {failure : Option String}
    (ran : on (writeReport folder stem report >>= fun _ => pure (some label)) p t =
      ⟨.ok failure, p', t'⟩) :
    failure = some label ∧ p' = p ∧ on (writeReport folder stem report) p t = ⟨.ok (), p', t'⟩ := by
  obtain ⟨_, q, s, stored, last⟩ := on_bind_ok.mp ran
  obtain ⟨rfl, -⟩ := writeReport_eq_ok stored
  rw [on_pure] at last
  cases last
  exact ⟨rfl, rfl, stored⟩

theorem agree_writeReport {stem report : String} (same : FileTree.AgreeOff off t u)
    (left : on (writeReport folder stem report) p t = ⟨.ok (), p', t'⟩)
    (right : on (writeReport folder stem report) q u = ⟨.ok (), q', u'⟩) :
    FileTree.AgreeOff off t' u' := by
  obtain ⟨-, written⟩ := writeReport_eq_ok left
  obtain ⟨-, written'⟩ := writeReport_eq_ok right
  exact (same.step (.of_createFolders off t folder) (.of_createFolders off u folder)).write
    written written'

variable {root output template : Path} {flatten : Bool} {v : Verdict}

/-- The same verdict can be carried out in two trees that agree. -/
theorem Verdict.Carried.agree (left : v.Carried off root output template flatten t t')
    (right : v.Carried off root output template flatten u u')
    (same : FileTree.AgreeOff off t u) : FileTree.AgreeOff off t' u' := by
  cases left with
  | results before stored =>
    cases right with
    | results before' stored' => exact agree_writeAllTo (same.step before before') stored stored'
  | report before stored =>
    cases right with
    | report before' stored' => exact agree_writeReport (same.step before before') stored stored'

/-- If a bulk run gets past a template, it has carried out the verdict on it. -/
theorem writeOne_eq_ok (off : List String → Prop) {request : Request} {options : WriteOptions}
    {failure : Option String}
    (ran : on (writeOne root output template request options flatten) p t = ⟨.ok failure, p', t'⟩) :
    ∃ v, Verdict.of? template options.limits
        (prepare template (t.template template) request options p.generator) = some v ∧
      failure = v.label? ∧ p'.printed = p.printed ++ v.line template ∧
      v.Carried off root output template flatten t t' := by
  have follows := expand_follows off template (Bulk.outputFolder root template output flatten)
    request options p t
  rw [writeOne] at ran
  obtain ⟨outcome, q, s, attempted, ran⟩ := on_bind_ok.mp ran
  have expanded : on (expand template request options
      (Bulk.outputFolder root template output flatten)) p t = ⟨outcome, q, s⟩ := by
    cases attempted
    rfl
  rw [expanded] at follows
  generalize prepare template (t.template template) request options p.generator = prepared
    at follows ⊢
  cases follows with
  | @stopped _ e _ _ blame =>
    -- what the file system is to blame for is not reported
    cases e <;> first | exact blame.elim | cases ran
  | @failed e _ _ same agree =>
    dsimp only at ran
    cases known : reportable? (.template e) with
    | none =>
      rw [known] at ran
      cases ran
    | some both =>
      obtain ⟨label, report⟩ := both
      rw [known] at ran
      obtain ⟨rfl, rfl, stored⟩ := report_eq_ok ran
      refine ⟨.failed label report, by rw [Verdict.of?, known]; rfl, rfl, ?_, .report agree stored⟩
      rw [same, Verdict.line, String.append_empty]
  | refused same agree =>
    obtain ⟨rfl, rfl, stored⟩ := report_eq_ok ran
    refine ⟨_, rfl, rfl, ?_, .report agree stored⟩
    rw [same, Verdict.line, String.append_empty]
  | @written count explanation results _ _ _ _ same agree stored =>
    obtain ⟨_, q', s', printed, last⟩ := on_bind_ok.mp ran
    cases printed
    cases last
    exact ⟨.written count results, rfl, rfl, congrArg (· ++ _) same, .results agree stored⟩

end

end Run

end ArenaVariations
