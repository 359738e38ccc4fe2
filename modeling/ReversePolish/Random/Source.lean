/-
Sources of random words, and drawing from them.

A source answers requests for words of 32 and of 64 bits.  Drawing looks at one
word after the other until one is accepted.  That need not happen, so a draw may
have no result; but it has one whenever an accepted word comes at all, because a
source says how long one has to be patient (`patience`): if that many requests
of one width in a row are rejected, then so are all later ones.
-/

namespace ReversePolish

/-- A source of random words. -/
class Source (σ : Type) where
  next32 : σ → UInt32 × σ
  next64 : σ → UInt64 × σ
  /-- The number of requests in a row after which no answer comes that has not come before. -/
  patience : σ → Nat

/-- A computation that takes words from a source; `none` if it asks for words for ever. -/
abbrev Draw (σ α : Type) := StateT σ Option α

namespace Draw

variable {σ α ω : Type}

/-- The first of at most `n` words that is accepted, as what it is accepted for. -/
def firstAccepted (next : σ → ω × σ) (accept : ω → Option α) : Nat → σ → Option (α × σ)
  | 0, _ => none
  | n + 1, s =>
    match accept (next s).1 with
    | some a => some (a, (next s).2)
    | none => firstAccepted next accept n (next s).2

/-- Draws from words of 32 bits. -/
def from32 [Source σ] (accept : UInt32 → Option α) : Draw σ α := fun s =>
  firstAccepted Source.next32 accept (Source.patience s) s

/-- Draws from words of 64 bits. -/
def from64 [Source σ] (accept : UInt64 → Option α) : Draw σ α := fun s =>
  firstAccepted Source.next64 accept (Source.patience s) s

/-- The results of drawing `n` times in a row. -/
def times (n : Nat) (draw : Draw σ α) : Draw σ (List α) :=
  match n with
  | 0 => pure []
  | n + 1 => do
    let a ← draw
    let as ← times n draw
    return a :: as

end Draw

end ReversePolish
