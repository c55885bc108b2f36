import Lox.Character.Class
import Lox.Token

/-!
The lexical grammar. A source is cut into fragments from left to right, each as long as possible:
blanks, comments, strings, numbers, words and operators. A character that starts none of these is a
fragment by itself, and a string or block comment that is never closed runs to the end.
-/

namespace Lox
open Character

/-- What a fragment is. -/
inductive Shape where
  | blank | lineComment | blockComment | string | number | word
  | operator (kind : Kind)
  | stray (c : Char)
  | openComment | openString
  deriving DecidableEq, Repr

/-- A piece of a source. -/
structure Fragment where
  shape : Shape
  text : List Char
  deriving DecidableEq, Repr

/-! ### Tables -/

/-- Operators of one character. -/
def operator₁ : Char → Option Kind
  | '(' => some .leftParen
  | ')' => some .rightParen
  | '{' => some .leftBrace
  | '}' => some .rightBrace
  | ',' => some .comma
  | '.' => some .dot
  | '-' => some .minus
  | '+' => some .plus
  | ';' => some .semicolon
  | '*' => some .star
  | '/' => some .slash
  | '!' => some .bang
  | '=' => some .equal
  | '<' => some .less
  | '>' => some .greater
  | _ => none

/-- Operators of two characters; the second is always an equals sign. -/
def operator₂ : Char → Option Kind
  | '!' => some .bangEqual
  | '=' => some .equalEqual
  | '<' => some .lessEqual
  | '>' => some .greaterEqual
  | _ => none

/-- The words that are no names. -/
def keywords : List (String × Kind) :=
  [("and", .kwAnd), ("class", .kwClass), ("else", .kwElse), ("false", .kwFalse), ("for", .kwFor),
    ("fun", .kwFun), ("if", .kwIf), ("nil", .kwNil), ("or", .kwOr), ("print", .kwPrint),
    ("return", .kwReturn), ("super", .kwSuper), ("this", .kwThis), ("true", .kwTrue),
    ("var", .kwVar), ("while", .kwWhile)]

/-- What a word is: a keyword, or else a name. -/
def wordKind (w : String) : Kind := (keywords.lookup w).getD .identifier

namespace Fragment

/-! ### Lengths

Each of these counts how many of the characters after a fragment's first one belong to it. -/

/-- How many characters at the front satisfy `p`. -/
def run (p : Char → Bool) (cs : List Char) : Nat := (cs.takeWhile p).length

/-- The characters up to the end of the first `*/`, counted on from `n`. -/
def pastClose (n : Nat) : List Char → Option Nat
  | '*' :: '/' :: _ => some (n + 2)
  | _ :: r => pastClose (n + 1) r
  | [] => none

/-- Digits, and a fraction if a digit follows the point. -/
def numberTail (r : List Char) : Nat :=
  let n := run isDigit r
  match r.drop n with
  | '.' :: d :: r => if isDigit d then n + 2 + run isDigit r else n
  | _ => n

/-- All up to the next quote. -/
def stringTail (r : List Char) : Shape × Nat :=
  let n := run (· != '"') r
  if n < r.length then (.string, n + 1) else (.openString, n)

/-- What starts with a slash. -/
def slashTail : List Char → Shape × Nat
  | '/' :: r => (.lineComment, run (· != '\n') r + 1)
  | '*' :: r =>
    match pastClose 1 r with
    | some n => (.blockComment, n)
    | none => (.openComment, r.length + 1)
  | _ => (.operator .slash, 0)

/-- An operator, the longer one if there is a choice, or a stray character. -/
def operatorTail (c : Char) (r : List Char) : Shape × Nat :=
  match operator₂ c, r with
  | some k, '=' :: _ => (.operator k, 1)
  | _, _ =>
    match operator₁ c with
    | some k => (.operator k, 0)
    | none => (.stray c, 0)

/-- The shape of the fragment that starts with `c`, and how much of `r` belongs to it. -/
def shapeOf (c : Char) (r : List Char) : Shape × Nat :=
  if isBlank c then (.blank, 0)
  else if isDigit c then (.number, numberTail r)
  else if isLetter c then (.word, run isWordPart r)
  else if c = '"' then stringTail r
  else if c = '/' then slashTail r
  else operatorTail c r

/-! ### Cutting -/

/-- Cut at most `n` fragments off the front, and put them behind those in `acc`. -/
def cut : Nat → Array Fragment → List Char → Array Fragment
  | 0, acc, _ => acc
  | _ + 1, acc, [] => acc
  | n + 1, acc, c :: r =>
    let (s, k) := shapeOf c r
    cut n (acc.push ⟨s, c :: r.take k⟩) (r.drop k)

/-- The fragments of a source. -/
def all (cs : List Char) : List Fragment := (cut cs.length #[] cs).toList

/-! ### Laws of cutting -/

/-- What was cut before stays in front. -/
theorem cut_acc (n : Nat) (acc : Array Fragment) (cs : List Char) :
    (cut n acc cs).toList = acc.toList ++ (cut n #[] cs).toList := by
  induction n generalizing acc cs with
  | zero => simp [cut]
  | succ n ih =>
    cases cs with
    | nil => simp [cut]
    | cons c r =>
      rw [cut, cut, ih, ih (#[].push _)]
      simp

/-- Any number of rounds that covers the source cuts all of it. -/
theorem cut_eq (n m : Nat) (cs : List Char) (hn : cs.length ≤ n) (hm : cs.length ≤ m) :
    (cut n #[] cs).toList = (cut m #[] cs).toList := by
  induction n generalizing m cs with
  | zero => cases cs with
    | nil => cases m <;> rfl
    | cons c r => simp at hn
  | succ n ih =>
    cases cs with
    | nil => cases m <;> rfl
    | cons c r =>
      cases m with
      | zero => simp at hm
      | succ m =>
        simp only [List.length_cons] at hn hm
        rw [cut, cut, cut_acc, cut_acc m, ih m]
        · simp only [List.length_drop]; omega
        · simp only [List.length_drop]; omega

@[simp] theorem all_nil : all [] = [] := rfl

/-- The first fragment is the one that `shapeOf` finds, and the others are those of the rest. -/
theorem all_cons (c : Char) (r : List Char) :
    all (c :: r) =
      ⟨(shapeOf c r).1, c :: r.take (shapeOf c r).2⟩ :: all (r.drop (shapeOf c r).2) := by
  rw [all, List.length_cons, cut, cut_acc, all]
  simp only [Array.toList_push, List.nil_append, List.cons_append]
  rw [cut_eq r.length _ _ (by simp) (Nat.le_refl _)]

/-- Nothing of a source is lost. -/
theorem flatMap_all (cs : List Char) : (all cs).flatMap (·.text) = cs := by
  suffices h : ∀ n (cs : List Char), cs.length ≤ n → (all cs).flatMap (·.text) = cs from
    h _ cs (Nat.le_refl _)
  intro n
  induction n with
  | zero => intro cs h; simp [List.eq_nil_of_length_eq_zero (Nat.le_zero.mp h)]
  | succ n ih =>
    intro cs h
    cases cs with
    | nil => rfl
    | cons c r =>
      rw [all_cons, List.flatMap_cons, ih]
      · simp
      · simp only [List.length_cons] at h
        simp only [List.length_drop]; omega

end Fragment
end Lox
