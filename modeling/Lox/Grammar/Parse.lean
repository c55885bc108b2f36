import Lox.Grammar.Error
import Lox.Grammar.Tree

/-!
Steps of parsing. A step looks at the tokens that are left, takes some of them, and gives a part of
a tree or ends at a flaw. It may report flaws that do not end it. The tokens hold no end marker: the
end is where none is left.
-/

namespace Lox

/-- A flaw, and the token at which it shows if that is not the end. -/
structure Problem where
  flaw : Flaw
  spot : Option Token

/-- How far parsing got: the tokens left, and the flaws reported so far. -/
structure Progress where
  rest : List Token
  reports : Array Problem

/-- A step of parsing. What was taken and reported stays so when it ends at a flaw. -/
abbrev Parse := EStateM Problem Progress

namespace Parse

/-- Stop at the next token. -/
def fail (flaw : Flaw) : Parse α := fun s => .error ⟨flaw, s.rest.head?⟩ s

/-- Note a flaw at some token, or at the end, and go on. -/
def reportAt (flaw : Flaw) (spot : Option Token) : Parse Unit := fun s =>
  .ok () { s with reports := s.reports.push ⟨flaw, spot⟩ }

/-- Note a flaw at the next token and go on. -/
def report (flaw : Flaw) : Parse Unit := fun s => reportAt flaw s.rest.head? s

/-- Whether no token is left. -/
def atEnd : Parse Bool := fun s => .ok s.rest.isEmpty s

/-- Whether the next token is of kind `k`. -/
def nextIs (k : Kind) : Parse Bool := fun s =>
  match s.rest with
  | t :: _ => .ok (t.kind == k) s
  | [] => .ok false s

/-- Take the next token if its kind is right. -/
def takeIf (p : Kind → Bool) : Parse (Option Token) := fun s =>
  match s.rest with
  | t :: rest => if p t.kind then .ok (some t) { s with rest } else .ok none s
  | [] => .ok none s

/-- Take the next token if it is of kind `k`, and say whether it was. -/
def skipIf (k : Kind) : Parse Bool := do return (← takeIf (· == k)).isSome

/-- Take the token that a place of the grammar needs. -/
def expect (slot : Slot) : Parse Token := do
  match ← takeIf (· == slot.kind) with
  | some t => return t
  | none => fail (.missing slot)

/-- More items after commas, put behind those in `acc`. An item beyond the first `limit` is reported
where it starts. The number of rounds is at least that of the tokens left, so it never runs out. -/
def moreItems (limit : Nat) (flaw : Flaw) (item : Parse α) : Nat → Array α → Parse (Array α)
  | 0, acc => return acc
  | n + 1, acc => do
    if ← skipIf .comma then
      if limit ≤ acc.size then report flaw
      let x ← item
      moreItems limit flaw item n (acc.push x)
    else return acc

/-- Items with commas between them, none at all if the closing parenthesis comes next. -/
def items (size limit : Nat) (flaw : Flaw) (item : Parse α) : Parse (List α) := do
  if ← nextIs .rightParen then return []
  else
    let x ← item
    return (← moreItems limit flaw item size #[x]).toList

end Parse
end Lox
