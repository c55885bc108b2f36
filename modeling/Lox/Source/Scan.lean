import Lox.Source.Fragment
import Lox.Decimal.Text

/-!
Scanning: from the fragments of a source to its tokens. Strings, numbers, words and operators say a
token each; stray characters and things left open say an error, and scanning goes on after it. Where
a token stands is counted along the way.
-/

namespace Lox

/-! ### Errors -/

/-- What can be wrong with a fragment. -/
inductive ScanFlaw where
  | openComment | openString
  | stray (c : Char)
  deriving DecidableEq, Repr

/-- A fragment that is no token, and the line where it ends. -/
structure ScanError where
  flaw : ScanFlaw
  line : Nat
  deriving DecidableEq, Repr

/-- What is said of a flaw. -/
def ScanFlaw.message : ScanFlaw → String
  | .openComment => "Unterminated block comment."
  | .openString => "Unterminated string."
  | .stray _ => "Unexpected character."

/-- Things left open are only missed at the end. -/
def ScanFlaw.location : ScanFlaw → String
  | .stray c => "at '" ++ c.toString ++ "'"
  | _ => "at end"

/-! ### Places -/

/-- A place in a source: its line counted from 1, how many bytes and how many tokens come before. -/
structure Place where
  line : Nat
  col : Nat
  idx : Nat
  deriving DecidableEq, Repr

/-- The place before the first character. -/
def Place.start : Place := ⟨1, 0, 0⟩

/-- How many bytes some characters take. -/
def bytesOf (cs : List Char) : Nat := cs.foldl (fun n c => n + c.utf8Size) 0

/-- A token or an error, in the order of the source. -/
inductive Item where
  | token (t : Token)
  | error (e : ScanError)
  deriving Inhabited

/-- The token that a fragment spells, placed by the line of its end and the place of its start. -/
def Fragment.toToken (f : Fragment) (line : Nat) (p : Place) (kind : Kind) (value : Literal) :
    Item :=
  .token ⟨kind, String.ofList f.text, line, p.col, p.idx, value⟩

/-- The line on which a fragment ends that starts at `p`. -/
def Fragment.endLine (f : Fragment) (p : Place) : Nat := p.line + f.text.count '\n'

/-- What a fragment at the place `p` says. -/
def Fragment.item? (f : Fragment) (p : Place) : Option Item :=
  let line := f.endLine p
  match f.shape with
  | .blank | .lineComment | .blockComment => none
  | .string => some (f.toToken line p .string (.str (String.ofList f.text.tail.dropLast)))
  | .number => some (f.toToken line p .number (.num (Decimal.read f.text)))
  | .word =>
    let kind := wordKind (String.ofList f.text)
    let value := match kind with
      | .kwTrue => .bool true
      | .kwFalse => .bool false
      | _ => .nil
    some (f.toToken line p kind value)
  | .operator kind => some (f.toToken line p kind .nil)
  | .stray c => some (.error ⟨.stray c, line⟩)
  | .openComment => some (.error ⟨.openComment, line⟩)
  | .openString => some (.error ⟨.openString, line⟩)

/-- The token, if it is one. -/
def Item.token? : Item → Option Token
  | .token t => some t
  | .error _ => none

/-- The error, if it is one. -/
def Item.error? : Item → Option ScanError
  | .token _ => none
  | .error e => some e

/-- The place after a fragment at `p`, which says `i`. -/
def Fragment.next (f : Fragment) (p : Place) (i : Option Item) : Place where
  line := f.endLine p
  col := p.col + bytesOf f.text
  idx := p.idx + if (i.bind Item.token?).isSome then 1 else 0

/-! ### Scanning -/

/-- Scanning under way: how far it got, and what it found. -/
structure Scan where
  place : Place
  found : Array Item

/-- Go past one more fragment. -/
def Scan.step (s : Scan) (f : Fragment) : Scan :=
  let i := f.item? s.place
  ⟨f.next s.place i, s.found ++ i.toArray⟩

/-- Go past all fragments of a source. -/
def Scan.ofSource (src : String) : Scan :=
  (Fragment.all src.toList).foldl Scan.step ⟨.start, #[]⟩

/-- The token that ends a source. -/
def Place.eof (p : Place) : Token := ⟨.eof, "", p.line, p.col, p.idx, .nil⟩

/-- All that was found, with the end of the source as the last token. -/
def Scan.items (s : Scan) : List Item := (s.found.push (.token s.place.eof)).toList

/-- The tokens and the errors of a source. -/
def scan (src : String) : List Token × List ScanError :=
  let is := (Scan.ofSource src).items
  (is.filterMap Item.token?, is.filterMap Item.error?)

/-! ### Token by token -/

/-- A source that is read one token at a time, and the errors met so far. -/
structure TokenStream where
  ahead : List Item
  errors : Array ScanError

/-- A source of which nothing has been read. -/
def TokenStream.ofSource (src : String) : TokenStream := ⟨(Scan.ofSource src).items, #[]⟩

/-- Pass over errors up to the next token. -/
def TokenStream.advance : List Item → Array ScanError → Option Token × TokenStream
  | [], errors => (none, ⟨[], errors⟩)
  | .token t :: ahead, errors => (some t, ⟨ahead, errors⟩)
  | .error e :: ahead, errors => advance ahead (errors.push e)

/-- The next token, if the end has not been read yet. -/
def TokenStream.next (s : TokenStream) : Option Token × TokenStream := advance s.ahead s.errors

end Lox
