import ArenaVariations.Expansion.Enumeration
import ArenaVariations.Resolution.Settling
import ArenaVariations.Template.Basic

/-!
# Generation

A `Production` hands out finished variations of a template, up to an amount: independent samples,
or all variations in order. Every one of them is settled before it is handed out, so that no
conditional is left open and all label rules have been applied. A variation that cannot be
finished is a failure among the others and not the end.
-/

namespace ArenaVariations

/-- Defaults and caps for generation. -/
structure Limits where
  /-- The largest number of variations that is enumerated in full. -/
  maxVariations : Nat := 10000
  /-- The number of samples when none is given. -/
  sampleAmount : Nat := 100
  seed : UInt64 := 1234
deriving Repr

namespace Limits

/-- Whether so many variations may be enumerated in full. -/
def allows (limits : Limits) (count : Nat) : Bool :=
  count ≤ limits.maxVariations

end Limits

/-- How variations are picked. -/
inductive Mode where
  /-- Independent draws, which may repeat. -/
  | sample
  /-- Every variation in order. -/
  | exhaustive
deriving DecidableEq, Repr, Inhabited

/-- A stream of finished variations. -/
structure Production where
  template : Template
  mode : Mode
  /-- How many variations may still be handed out. -/
  remaining : Nat
  cursor : Cursor
deriving Inhabited

namespace Production

/-- A stream of up to so many variations of a template. -/
def ofTemplate (template : Template) (mode : Mode) (amount : Nat) : Production :=
  ⟨template, mode, amount, .fresh⟩

/-- The next variation as expansion leaves it. -/
def nextRaw (p : Production) : Draw (Pull Variation × Cursor) :=
  match p.mode with
  | .sample => do return (.ofExcept (← p.template.body.sample.run), p.cursor)
  | .exhaustive => p.template.body.advance p.cursor

/-- The next finished variation. -/
def next (p : Production) : Draw (Pull Variation × Production) :=
  match p.remaining with
  | 0 => return (.done, p)
  | remaining + 1 => do
    let (pull, cursor) ← p.nextRaw
    return (pull.bind fun v => v.settled p.template.rules,
      { p with remaining := remaining, cursor := cursor })

end Production

namespace Draw

/-- Take steps of a stream until so many are taken or it is done. The step that finds it done is
the last of the result. -/
def steps {σ α : Type} (next : σ → Draw (Pull α × σ)) : Nat → σ → Draw (List (Pull α) × σ)
  | 0, state => return ([], state)
  | amount + 1, state => do
    match ← next state with
    | (.done, state) => return ([.done], state)
    | (pull, state) =>
      let (pulls, state) ← steps next amount state
      return (pull :: pulls, state)

end Draw

end ArenaVariations
