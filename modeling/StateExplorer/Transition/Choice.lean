import StateExplorer.Transition.Routine

/-!
# Resolving choices

A policy picks one of several candidates, which turns a transition system into a routine. Random
choices draw from a generator of 64-bit words. Its state moves by a fixed odd amount and each word
mixes the halves of a 128-bit product. A draw below a number `n` scales a word to `n` and rejects
the few words that would favour some results.
-/

namespace StateExplorer

/-- How to pick one of several candidates. -/
inductive Policy where
  /-- The first one. -/
  | first
  /-- The last one. -/
  | last
  /-- Whichever is at hand. -/
  | any
  /-- A random one, drawn from a generator that starts with this seed. -/
  | uniform (seed : UInt64)
  deriving DecidableEq, Repr

namespace Policy

instance : Inhabited Policy := ⟨.first⟩

instance : Render Policy where
  render
    | .first => "First"
    | .last => "Last"
    | .any => "Any"
    | .uniform seed => s!"Uniform({render seed.toNat})"

/-- Where the generator for a policy starts. -/
def seed : Policy → UInt64
  | uniform seed => seed
  | _ => 0

variable {m : Type → Type} {α : Type} [Monad m]

/-- Picks a candidate, if there is one. A random choice runs `draw` with the number of candidates,
even if there is only one of them. -/
def pick (policy : Policy) (draw : Nat → m Nat) (candidates : List α) : m (Option α) :=
  match candidates, policy with
  | [], _ => return none
  | candidate :: _, .first => return some candidate
  | candidate :: _, .any => return some candidate
  | candidates, .last => return candidates.getLast?
  | candidates, .uniform _ => do
    let index ← draw candidates.length
    return candidates[index]?

end Policy

/-- A generator of random words. -/
structure Generator where
  /-- The state, which moves with every word. -/
  state : UInt64
  deriving DecidableEq, Repr

namespace Generator

/-- The next word. -/
def next (generator : Generator) : UInt64 × Generator :=
  let state := generator.state + 0x2d358dccaa6c78a5
  let product := state.toNat * (state ^^^ 0x8bb84b93962eacc9).toNat
  (UInt64.ofNat product ^^^ UInt64.ofNat (product / UInt64.size), ⟨state⟩)

/-- Scales words to results below `n` until one is not rejected. A word is rejected if the low half
of its product with `n` is below `threshold`. -/
def scale (n threshold : Nat) : Nat → UInt64 → Generator → Nat × Generator
  | 0, word, generator => (word.toNat * n / UInt64.size, generator)
  | tries + 1, word, generator =>
    if word.toNat * n % UInt64.size < threshold then
      let (word, generator) := generator.next
      scale n threshold tries word generator
    else
      (word.toNat * n / UInt64.size, generator)

/-- Draws a number below `n`. The generator has come through all its states after `2 ^ 64` words, so
no more tries make sense. -/
def below (n : Nat) (generator : Generator) : Nat × Generator :=
  let (word, generator) := generator.next
  scale n ((UInt64.size - n) % n) UInt64.size word generator

/-- A draw is below its limit: a word is below `2 ^ 64`, and so is what is left of it. -/
theorem scale_lt {n : Nat} (h : 0 < n) (threshold : Nat) :
    ∀ (tries : Nat) (word : UInt64) (generator : Generator),
      (scale n threshold tries word generator).1 < n
  | 0, word, generator => by
    have hw : word.toNat < UInt64.size := word.toNat_lt_size
    exact Nat.div_lt_of_lt_mul (Nat.mul_lt_mul_of_pos_right hw h)
  | tries + 1, word, generator => by
    unfold scale
    split
    · exact scale_lt h threshold tries _ _
    · have hw : word.toNat < UInt64.size := word.toNat_lt_size
      exact Nat.div_lt_of_lt_mul (Nat.mul_lt_mul_of_pos_right hw h)

theorem below_lt {n : Nat} (h : 0 < n) (generator : Generator) : (generator.below n).1 < n :=
  scale_lt h _ _ _ _

end Generator

/-- The routine that resolves every choice of a system by a policy. -/
def TransitionSystem.resolve {m : Type → Type} {C A : Type} [Monad m]
    (system : TransitionSystem m C A) (policy : Policy) (draw : Nat → m Nat) : Routine m C A where
  initial := do policy.pick draw (← system.initial)
  action configuration := do policy.pick draw (← system.actions configuration)
  execute action configuration := do
    match ← policy.pick draw (← system.execute action configuration) with
    | some next => return .ok next
    | none => return .error configuration

end StateExplorer
