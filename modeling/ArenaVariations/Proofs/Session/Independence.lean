import ArenaVariations.Proofs.Expansion.Silent
import ArenaVariations.Session

/-!
# Streams that do not disturb each other

The streams of a session share a generator, so a stream that draws changes what the others draw
later. An exhaustive production over a tree without restrictions is quiet: it never draws. Two
runs show what this means. In one of them a quiet stream is the only one, and it answers as it
does among others. In the other all pulls from quiet streams and all counts and explanations are
left out, and whatever else is asked is answered as before.

Both are simulations. The first needs only that the two runs hold the same stream under its name.
The second needs that they have the same generators and documents, and the same streams but for
quiet ones, which may have come further in one run than in the other.
-/

namespace ArenaVariations

open ArenaVariations.Random (Generator)

/-- A stream that never draws from the generator of productions. -/
inductive Stream.Quiet : Stream → Prop where
  | production {p : Production} (quiet : p.Quiet) : Quiet (.production p)

namespace Step

/-- Whether a step asks a stream for variations. -/
def pulls (stream : String) : Step → Bool
  | .pull name _ => name == stream
  | _ => false

/-- A step that opens a stream under a name, or drops the one that has it. -/
def Replaces (stream : String) : Step → Prop
  | .produce name .. | .enumerate name _ | .drop name => name = stream
  | _ => False

end Step

namespace Session

variable {s t : Session}

/-- The answers of a run to the steps that are asked for. -/
def answersTo (s : Session) (asked : Step → Bool) (steps : List Step) : List Answer :=
  ((steps.zip (s.answers steps)).filter fun entry => asked entry.1).map Prod.snd

/-- A session with the documents of another one, and with no open stream. -/
def withoutStreams (s : Session) (productions expansions : Generator) : Session :=
  ⟨productions, expansions, s.documents, []⟩

/-- A step that may be left out: a count, an explanation, or a pull from a quiet stream. -/
def Idle (s : Session) : Step → Prop
  | .count _ | .explain _ => True
  | .pull stream _ => ∃ open_, s.streams.lookup stream = some open_ ∧ open_.Quiet
  | _ => False

open Classical in
/-- The steps of a run that may not be left out, each with its answer in the run. -/
noncomputable def kept (s : Session) : List Step → List (Step × Answer)
  | [] => []
  | step :: steps =>
    let rest := (s.step step).2.kept steps
    if s.Idle step then rest else (step, (s.step step).1) :: rest

theorem lookup_filter_ne {α : Type} (name other : String) (entries : List (String × α)) :
    (entries.filter fun entry => entry.1 != name).lookup other =
      if other = name then none else entries.lookup other := by
  induction entries with
  | nil => simp
  | cons entry entries ih =>
    obtain ⟨key, value⟩ := entry
    by_cases same : key = name
    · subst same
      rw [List.filter_cons_of_neg (by simp), ih]
      by_cases asked : other = key
      · simp [asked]
      · simp [asked, List.lookup_cons, beq_false_of_ne asked]
    · rw [List.filter_cons_of_pos (by simpa using same), List.lookup_cons, List.lookup_cons, ih]
      by_cases asked : other = key
      · subst asked
        simp [same]
      · simp [beq_false_of_ne asked]

theorem lookup_put {α : Type} (name other : String) (value : α) (entries : List (String × α)) :
    (put name value entries).lookup other =
      if other = name then some value else entries.lookup other := by
  rw [put, List.lookup_cons, lookup_filter_ne]
  by_cases asked : other = name
  · simp [asked]
  · simp [asked, beq_false_of_ne asked]

theorem lookup_put_of_ne {α : Type} {name other : String} (ne : other ≠ name) (value : α)
    (entries : List (String × α)) :
    (put name value entries).lookup other = entries.lookup other := by
  rw [lookup_put, if_neg ne]

theorem lookup_start_of_ne {stream name document : String} (ne : stream ≠ name)
    (make : Document → Stream) :
    (s.start name document make).2.streams.lookup stream = s.streams.lookup stream := by
  unfold start
  split
  · exact lookup_put_of_ne ne ..
  · rfl

/-- A step leaves a stream as it is unless it is a pull from it, opens another one in its place or
drops it. -/
theorem step_lookup {stream : String} {step : Step} (other : step.pulls stream = false)
    (keeps : ¬ step.Replaces stream) :
    (s.step step).2.streams.lookup stream = s.streams.lookup stream := by
  cases step with
  | load name tree =>
    simp only [Session.step]
    split
    · rfl
    · split <;> rfl
  | count =>
    simp only [Session.step]
    split <;> rfl
  | explain | sample =>
    simp only [Session.step]
    split
    · split <;> rfl
    · rfl
  | produce name | enumerate name =>
    exact lookup_start_of_ne (fun same => keeps same.symm) _
  | pull name amount =>
    have ne : stream ≠ name := fun same => by simp [Step.pulls, same] at other
    simp only [Session.step]
    split
    · rfl
    · exact lookup_put_of_ne ne ..
    · exact lookup_put_of_ne ne ..
  | drop name =>
    simp only [Session.step]
    rw [lookup_filter_ne, if_neg fun same => keeps same.symm]
  | choose => rfl

/-- What a quiet stream answers depends on nothing but its own state, and the generator of
productions stays where it is. -/
theorem step_pull_quiet {p : Production} (quiet : p.Quiet) (stream : String) (amount : Nat) :
    ∃ (items : List (Pull Variation)) (q : Production), q.Quiet ∧ ∀ s : Session,
      s.streams.lookup stream = some (.production p) →
        s.step (.pull stream amount) = (.finished items,
          { s with streams := put stream (.production q) s.streams }) := by
  obtain ⟨⟨items, q⟩, stepped, still⟩ := quiet.steps amount
  refine ⟨items, q, still, fun s held => ?_⟩
  simp only [Session.step, held, stepped]
  rfl

/-- Two runs answer the pulls from a quiet stream alike, whatever else is asked in the first one. -/
theorem answersTo_pulls_of_held {stream : String} {p : Production} (quiet : p.Quiet)
    (heldBy : s.streams.lookup stream = some (.production p))
    (held : t.streams.lookup stream = some (.production p)) {steps : List Step}
    (keeps : ∀ step ∈ steps, ¬ step.Replaces stream) :
    s.answersTo (Step.pulls stream) steps = t.answers (steps.filter (Step.pulls stream)) := by
  induction steps generalizing s t p with
  | nil => rfl
  | cons step steps ih =>
    obtain ⟨here, later⟩ := List.forall_mem_cons.mp keeps
    cases asked : step.pulls stream with
    | false =>
      have next := ih quiet ((step_lookup asked here).trans heldBy) held later
      rw [List.filter_cons_of_neg (by simp [asked]), ← next]
      simp [answersTo, answers, asked]
    | true =>
      obtain ⟨name, amount, rfl⟩ : ∃ name amount, step = .pull name amount := by
        cases step with
        | pull name amount => exact ⟨name, amount, rfl⟩
        | _ => simp [Step.pulls] at asked
      obtain rfl : name = stream := by simpa [Step.pulls] using asked
      obtain ⟨items, q, still, pulled⟩ := step_pull_quiet quiet name amount
      have next := ih (s := { s with streams := put name (.production q) s.streams })
        (t := { t with streams := put name (.production q) t.streams }) still
        (by simp [lookup_put]) (by simp [lookup_put]) later
      rw [List.filter_cons_of_pos asked]
      simp only [answersTo, answers, pulled s heldBy, pulled t held, ← next]
      rw [List.zip_cons_cons, List.filter_cons_of_pos (by exact asked), List.map_cons]

/-- What two sessions hold under a name: the same, or two quiet streams. -/
inductive AlikeOrQuiet : Option Stream → Option Stream → Prop where
  | alike (held : Option Stream) : AlikeOrQuiet held held
  | quiet {a b : Stream} (left : a.Quiet) (right : b.Quiet) : AlikeOrQuiet (some a) (some b)

theorem AlikeOrQuiet.isSome {a b : Option Stream} (h : AlikeOrQuiet a b) :
    a.isSome = b.isSome := by
  cases h <;> rfl

theorem AlikeOrQuiet.quiet_right {a b : Option Stream} (h : AlikeOrQuiet a b) {x : Stream}
    (held : a = some x) (sleeps : x.Quiet) : ∃ y, b = some y ∧ y.Quiet := by
  cases h with
  | alike => exact ⟨x, held, sleeps⟩
  | quiet _ right => exact ⟨_, rfl, right⟩

/-- A stream that two sessions may hold in different states is quiet. -/
theorem AlikeOrQuiet.eq {a b : Option Stream} (h : AlikeOrQuiet a b)
    (draws : ¬ ∃ x, a = some x ∧ x.Quiet) : a = b := by
  cases h with
  | alike => rfl
  | quiet left => exact (draws ⟨_, rfl, left⟩).elim

/-- Two sessions differ in nothing but in their quiet streams. -/
inductive Agrees : Session → Session → Prop where
  | intro {productions expansions : Generator} {documents : List (String × Document)}
      {a b : List (String × Stream)}
      (streams : ∀ name, AlikeOrQuiet (a.lookup name) (b.lookup name)) :
      Agrees ⟨productions, expansions, documents, a⟩ ⟨productions, expansions, documents, b⟩

theorem Agrees.refl (s : Session) : s.Agrees s :=
  ⟨fun _ => .alike _⟩

/-- Sessions that agree still do when the same stream is put under the same name. -/
theorem AlikeOrQuiet.put {a b : List (String × Stream)}
    (h : ∀ name, AlikeOrQuiet (a.lookup name) (b.lookup name)) (name : String) (value : Stream)
    (other : String) :
    AlikeOrQuiet ((put name value a).lookup other) ((put name value b).lookup other) := by
  rw [lookup_put, lookup_put]
  split
  · exact .alike _
  · exact h other

theorem Agrees.start (h : s.Agrees t) (stream document : String) (make : Document → Stream) :
    (s.start stream document make).1 = (t.start stream document make).1 ∧
      (s.start stream document make).2.Agrees (t.start stream document make).2 := by
  obtain ⟨alike⟩ := h
  simp only [Session.start]
  split
  · exact ⟨rfl, ⟨AlikeOrQuiet.put alike _ _⟩⟩
  · exact ⟨rfl, ⟨alike⟩⟩

/-- An idle step changes no more than a quiet stream. -/
theorem Agrees.idle (h : s.Agrees t) {step : Step} (idle : s.Idle step) :
    (s.step step).2.Agrees t := by
  cases step with
  | count name =>
    simp only [Session.step]
    split <;> exact h
  | explain name =>
    simp only [Session.step]
    split
    · split <;> exact h
    · exact h
  | pull stream amount =>
    obtain ⟨_, held, ⟨quiet⟩⟩ := idle
    obtain ⟨items, q, still, pulled⟩ := step_pull_quiet quiet stream amount
    obtain ⟨alike⟩ := h
    rw [pulled _ held]
    refine ⟨fun name => ?_⟩
    have alike := alike name
    rw [lookup_put]
    split
    · -- The other session holds a quiet stream here as well, maybe one that has come less far.
      subst name
      obtain ⟨other, holds, sleeps⟩ := alike.quiet_right held (.production quiet)
      exact holds ▸ .quiet (.production still) sleeps
    · exact alike
  | load | sample | produce | enumerate | drop | choose => exact idle.elim

/-- Any other step has the same answer in sessions that agree. -/
theorem Agrees.step (h : s.Agrees t) {step : Step} (acts : ¬ s.Idle step) :
    (s.step step).1 = (t.step step).1 ∧ (s.step step).2.Agrees (t.step step).2 := by
  obtain ⟨alike⟩ := id h
  cases step with
  | load name tree =>
    simp only [Session.step]
    split
    · exact ⟨rfl, h⟩
    · split
      · exact ⟨rfl, h⟩
      · exact ⟨rfl, ⟨alike⟩⟩
  | count | explain => exact (acts trivial).elim
  | sample name =>
    simp only [Session.step]
    split
    · split <;> exact ⟨rfl, ⟨alike⟩⟩
    · exact ⟨rfl, h⟩
  | produce | enumerate => exact h.start ..
  | pull stream amount =>
    simp only [Session.step, (alike stream).eq acts]
    split
    · exact ⟨rfl, h⟩
    · exact ⟨rfl, ⟨AlikeOrQuiet.put alike _ _⟩⟩
    · exact ⟨rfl, ⟨AlikeOrQuiet.put alike _ _⟩⟩
  | drop stream =>
    refine ⟨congrArg Answer.dropped (alike stream).isSome, ⟨fun name => ?_⟩⟩
    rw [lookup_filter_ne, lookup_filter_ne]
    split
    · exact .alike _
    · exact alike name
  | choose => exact ⟨rfl, ⟨alike⟩⟩

/-- The steps that are kept have the same answers in any session that agrees. -/
theorem Agrees.answers_kept (h : s.Agrees t) (steps : List Step) :
    t.answers ((s.kept steps).map Prod.fst) = (s.kept steps).map Prod.snd := by
  induction steps generalizing s t with
  | nil => rfl
  | cons step steps ih =>
    rw [kept]
    by_cases idle : s.Idle step
    · rw [if_pos idle]
      exact ih (h.idle idle)
    · rw [if_neg idle]
      obtain ⟨same, next⟩ := h.step idle
      simp only [List.map_cons, answers, same, ih next]

/-- Streams of a session disturb each other only by drawing. An exhaustive stream over a tree
without restrictions answers every pull as it does when no other stream is ever opened, whatever is
asked in between and wherever the generators stand. And every other step of a run, down to the last
item, is answered as it is when all pulls from such streams, all counts and all explanations are
left out. -/
theorem streams_independent {stream document : String} {d : Document}
    (known : s.documents.lookup document = some d)
    (free : d.template.body.FreeOf [.restriction]) (amount : Nat) {steps : List Step}
    (keeps : ∀ step ∈ steps, ¬ step.Replaces stream) (productions expansions : Generator) :
    (s.step (.produce stream document .exhaustive amount)).2.answersTo (Step.pulls stream) steps =
        ((s.withoutStreams productions expansions).step
          (.produce stream document .exhaustive amount)).2.answers
            (steps.filter (Step.pulls stream)) ∧
      ∀ (u : Session) (run : List Step),
        u.answers ((u.kept run).map Prod.fst) = (u.kept run).map Prod.snd := by
  constructor
  · have quiet : (Production.ofTemplate d.template .exhaustive amount).Quiet := ⟨rfl, free⟩
    refine answersTo_pulls_of_held quiet ?_ ?_ keeps
    · simp only [Session.step, Session.start, known, lookup_put, if_true]
    · simp only [Session.step, Session.start, withoutStreams, known, lookup_put, if_true]
  · exact fun u run => (Agrees.refl u).answers_kept run

/-- A choice between two numbers, without settings. -/
def choiceDocument : Document :=
  let tree : Node := .choice [.int 1, .int 2]
  ⟨tree, ⟨tree, []⟩⟩

/-- A session that knows one document. -/
def withChoice : Session :=
  { ofSeed 1 with documents := [("choice", choiceDocument)] }

/-- Pulls from a stream, with pulls from a sampling stream and a count between them. -/
def interleaved : List Step :=
  [.pull "all" 1, .produce "some" "choice" .sample 2, .pull "some" 1, .count "choice",
    .pull "all" 2, .pull "some" 1]

theorem streams_independent_interleaved :
    withChoice.documents.lookup "choice" = some choiceDocument ∧
      choiceDocument.template.body.FreeOf [.restriction] ∧
      (∀ step ∈ interleaved, ¬ step.Replaces "all") ∧
      (withChoice.step (.produce "all" "choice" .exhaustive 3)).2.answersTo (Step.pulls "all")
          interleaved =
        ((withChoice.withoutStreams (.ofSeed 2) (.ofSeed 2)).step
          (.produce "all" "choice" .exhaustive 3)).2.answers [.pull "all" 1, .pull "all" 2] := by
  have free : choiceDocument.template.body.FreeOf [.restriction] := by
    simp [choiceDocument, Node.freeOf_iff (n := .choice _), Node.freeOf_iff (n := .scalar _),
      Node.children, Node.rule, Node.int]
  have keeps : ∀ step ∈ interleaved, ¬ step.Replaces "all" := by
    simp [interleaved, Step.Replaces]
  exact ⟨rfl, free, keeps, (streams_independent rfl free 3 keeps (.ofSeed 2) (.ofSeed 2)).1⟩

end Session

end ArenaVariations
