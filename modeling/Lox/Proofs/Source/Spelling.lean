import Lox.Source.Scan

/-!
How tokens are spelled. Marks and keywords have one spelling each; a string is its text in quotes.
Every token that a scanner gives is spelled and valued as its kind says.
-/

namespace Lox

/-- The one way to write a mark or a keyword; names, numbers and strings have no such thing. -/
def Kind.spelling : Kind → String
  | .leftParen => "("
  | .rightParen => ")"
  | .leftBrace => "\x7b"
  | .rightBrace => "\x7d"
  | .comma => ","
  | .dot => "."
  | .minus => "-"
  | .plus => "+"
  | .semicolon => ";"
  | .slash => "/"
  | .star => "*"
  | .bang => "!"
  | .bangEqual => "!="
  | .equal => "="
  | .equalEqual => "=="
  | .greater => ">"
  | .greaterEqual => ">="
  | .less => "<"
  | .lessEqual => "<="
  | .kwAnd => "and"
  | .kwClass => "class"
  | .kwElse => "else"
  | .kwFalse => "false"
  | .kwFor => "for"
  | .kwFun => "fun"
  | .kwIf => "if"
  | .kwNil => "nil"
  | .kwOr => "or"
  | .kwPrint => "print"
  | .kwReturn => "return"
  | .kwSuper => "super"
  | .kwThis => "this"
  | .kwTrue => "true"
  | .kwVar => "var"
  | .kwWhile => "while"
  | .identifier | .string | .number | .eof => ""

/-- Whether tokens of a kind may be spelled in many ways. -/
def Kind.isOpen : Kind → Bool
  | .identifier | .string | .number => true
  | _ => false

/-- A string literal as it is written. -/
def quote (s : String) : String := String.ofList ('"' :: (s.toList ++ ['"']))

/-- What the tokens of a kind denote, given the lexeme. -/
def Kind.Denotes (lexeme : String) (v : Literal) : Kind → Prop
  | .kwTrue => v = .bool true
  | .kwFalse => v = .bool false
  | .number => ∃ x, v = .num x
  | .string => ∃ s, v = .str s ∧ lexeme = quote s
  | _ => v = .nil

/-- A token that is spelled and valued as its kind says. -/
structure Token.Regular (t : Token) : Prop where
  spelled : t.kind.isOpen = false → t.lexeme = t.kind.spelling
  denotes : t.kind.Denotes t.lexeme t.value

/-! ### Fragments -/

/-- Marks are the kinds of operators. -/
def Kind.isMark : Kind → Bool
  | .leftParen | .rightParen | .leftBrace | .rightBrace | .comma | .dot | .minus | .plus
  | .semicolon | .slash | .star | .bang | .bangEqual | .equal | .equalEqual | .greater
  | .greaterEqual | .less | .lessEqual => true
  | _ => false

namespace Fragment

/-- What is known of the text of a fragment from its shape. -/
def Spelled (f : Fragment) : Prop :=
  match f.shape with
  | .operator k => k.isMark = true ∧ String.ofList f.text = k.spelling
  | .string => ∃ cs, f.text = '"' :: (cs ++ ['"'])
  | _ => True

/-- A property of all fragments that may come first holds of all fragments of a source. -/
theorem forall_mem_all {P : Fragment → Prop}
    (h : ∀ c r, P ⟨(shapeOf c r).1, c :: r.take (shapeOf c r).2⟩) (cs : List Char) :
    ∀ f ∈ all cs, P f := by
  induction hn : cs.length using Nat.strongRecOn generalizing cs with
  | ind n ih =>
    intro f hf
    cases cs with
    | nil => cases hf
    | cons c r =>
      rw [all_cons] at hf
      rcases List.mem_cons.mp hf with rfl | hf
      · exact h c r
      · refine ih _ ?_ _ rfl f hf
        rw [← hn, List.length_cons, List.length_drop]
        omega

theorem operator₁_spelling {c : Char} {k : Kind} (h : operator₁ c = some k) :
    k.isMark = true ∧ String.ofList [c] = k.spelling := by
  revert h
  unfold operator₁
  split <;> rintro ⟨⟩ <;> exact ⟨rfl, rfl⟩

theorem operator₂_spelling {c : Char} {k : Kind} (h : operator₂ c = some k) :
    k.isMark = true ∧ String.ofList [c, '='] = k.spelling := by
  revert h
  unfold operator₂
  split <;> rintro ⟨⟩ <;> exact ⟨rfl, rfl⟩

theorem operatorTail_spelled (c : Char) (r : List Char) :
    Spelled ⟨(operatorTail c r).1, c :: r.take (operatorTail c r).2⟩ := by
  unfold operatorTail
  split
  · next k r h => exact operator₂_spelling h
  · split
    · next k h => simpa [Spelled] using operator₁_spelling h
    · trivial

theorem slashTail_spelled (r : List Char) :
    Spelled ⟨(slashTail r).1, '/' :: r.take (slashTail r).2⟩ := by
  unfold slashTail
  split
  · trivial
  · split <;> trivial
  · exact ⟨rfl, rfl⟩

/-- A closed string ends at the first quote after it started. -/
theorem stringTail_spelled (r : List Char) :
    Spelled ⟨(stringTail r).1, '"' :: r.take (stringTail r).2⟩ := by
  have hr := List.takeWhile_append_dropWhile (p := (· != '"')) (l := r)
  rw [stringTail, run]
  cases hd : r.dropWhile (· != '"') with
  | nil =>
    rw [hd, List.append_nil] at hr
    simp [hr, Spelled]
  | cons c cs =>
    obtain rfl : c = '"' := by
      have := List.head?_dropWhile_not (· != '"') r
      simpa [hd] using this
    rw [hd] at hr
    have hlt : (r.takeWhile (· != '"')).length < r.length := by
      rw [← congrArg List.length hr]
      simp
    rw [if_pos hlt]
    refine ⟨r.takeWhile (· != '"'), ?_⟩
    have htake : (r.takeWhile (· != '"') ++ '"' :: cs).take
        ((r.takeWhile (· != '"')).length + 1) = r.takeWhile (· != '"') ++ ['"'] := by
      simp [List.take_append, List.take_of_length_le]
    rw [hr] at htake
    simp [htake]

theorem shapeOf_spelled (c : Char) (r : List Char) :
    Spelled ⟨(shapeOf c r).1, c :: r.take (shapeOf c r).2⟩ := by
  unfold shapeOf
  split
  · trivial
  split
  · trivial
  split
  · trivial
  split
  · next h => exact h ▸ stringTail_spelled r
  split
  · next h => exact h ▸ slashTail_spelled r
  · exact operatorTail_spelled c r

end Fragment

/-- A word that is no name is the keyword it is spelled as. -/
theorem wordKind_spelling (w : String) :
    wordKind w = .identifier ∨ (wordKind w).isOpen = false ∧ w = (wordKind w).spelling := by
  rw [wordKind]
  cases h : keywords.lookup w with
  | none => exact .inl rfl
  | some k =>
    have hmem : (w, k) ∈ keywords := by
      obtain ⟨l, l', h, -⟩ := List.lookup_eq_some_iff.mp h
      simp [h]
    right
    simp only [keywords, List.mem_cons, List.not_mem_nil, Prod.mk.injEq, or_false] at hmem
    rcases hmem with h | h | h | h | h | h | h | h | h | h | h | h | h | h | h | h <;>
      obtain ⟨rfl, rfl⟩ := h <;> exact ⟨rfl, rfl⟩

theorem Fragment.Spelled.regular {f : Fragment} (h : f.Spelled) {p : Place} {t : Token}
    (ht : f.item? p = some (.token t)) : t.Regular := by
  obtain ⟨shape, text⟩ := f
  cases shape with
  | string =>
    obtain ⟨cs, rfl⟩ := h
    simp only [item?, toToken, Option.some.injEq, Item.token.injEq] at ht
    subst ht
    exact ⟨by simp [Kind.isOpen], String.ofList cs, by simp, by simp [quote]⟩
  | number =>
    simp only [item?, toToken, Option.some.injEq, Item.token.injEq] at ht
    subst ht
    exact ⟨by simp [Kind.isOpen], _, rfl⟩
  | word =>
    simp only [item?, toToken, Option.some.injEq, Item.token.injEq] at ht
    subst ht
    refine ⟨fun hopen => ?_, ?_⟩
    · rcases wordKind_spelling (String.ofList text) with hw | ⟨-, hw⟩
      · rw [hw] at hopen
        cases hopen
      · exact hw
    · rcases wordKind_spelling (String.ofList text) with hw | ⟨hopen, -⟩
      · rw [hw]
        rfl
      · revert hopen
        cases wordKind (String.ofList text) <;> first | exact fun _ => rfl | exact nofun
  | operator k =>
    simp only [item?, toToken, Option.some.injEq, Item.token.injEq] at ht
    subst ht
    refine ⟨fun _ => h.2, ?_⟩
    have hk : k.isMark = true := h.1
    cases k <;> first | rfl | simp [Kind.isMark] at hk
  | _ => simp [item?] at ht

/-- No word is the end of a source. -/
theorem wordKind_ne_eof (w : String) : wordKind w ≠ .eof := by
  rcases wordKind_spelling w with hw | ⟨-, hw⟩
  · rw [hw]
    nofun
  · intro heof
    rw [heof] at hw
    subst hw
    revert heof
    decide

/-- No fragment is the end of a source. -/
theorem Fragment.Spelled.not_isEof {f : Fragment} (h : f.Spelled) {p : Place} {t : Token}
    (ht : f.item? p = some (.token t)) : t.isEof = false := by
  obtain ⟨shape, text⟩ := f
  rw [Token.isEof, beq_eq_false_iff_ne]
  cases shape with
  | string | number =>
    simp only [item?, toToken, Option.some.injEq, Item.token.injEq] at ht
    subst ht
    nofun
  | word =>
    simp only [item?, toToken, Option.some.injEq, Item.token.injEq] at ht
    subst ht
    exact wordKind_ne_eof _
  | operator k =>
    simp only [item?, toToken, Option.some.injEq, Item.token.injEq] at ht
    subst ht
    rintro rfl
    exact absurd h.1 (by decide)
  | _ => simp [item?] at ht

/-! ### Tokens -/

theorem Item.token?_eq_some {i : Item} {t : Token} : i.token? = some t ↔ i = .token t := by
  cases i <;> simp [token?]

/-- Everything found in a source is what one of its fragments says. -/
theorem Scan.mem_found (src : String) {i : Item} (h : i ∈ (Scan.ofSource src).found) :
    ∃ f ∈ Fragment.all src.toList, ∃ p, f.item? p = some i := by
  have hfold : ∀ (fs : List Fragment) (s : Scan), i ∈ (fs.foldl Scan.step s).found →
      i ∈ s.found ∨ ∃ f ∈ fs, ∃ p, f.item? p = some i := by
    intro fs
    induction fs with
    | nil => exact fun _ h => .inl h
    | cons f fs ih =>
      intro s h
      rcases ih _ h with h | ⟨g, hg, hi⟩
      · rcases Array.mem_append.mp h with h | h
        · exact .inl h
        · exact .inr ⟨f, List.mem_cons_self, s.place, by simpa using h⟩
      · exact .inr ⟨g, List.mem_cons_of_mem _ hg, hi⟩
  simpa using hfold _ _ h

/-- The tokens that were found. -/
def Scan.tokens (s : Scan) : List Token := s.found.toList.filterMap Item.token?

/-- A source ends with one more token than were found in it. -/
theorem scan_tokens (src : String) :
    (scan src).1 = (Scan.ofSource src).tokens ++ [(Scan.ofSource src).place.eof] := by
  simp [scan, Scan.items, Scan.tokens, Item.token?]

/-- Every token that was found is what a fragment says. -/
theorem Scan.exists_spelled {src : String} {t : Token} (ht : t ∈ (ofSource src).tokens) :
    ∃ f : Fragment, f.Spelled ∧ ∃ p, f.item? p = some (.token t) := by
  obtain ⟨i, hi, ht⟩ := List.mem_filterMap.mp ht
  obtain rfl := Item.token?_eq_some.mp ht
  obtain ⟨f, hf, hp⟩ := mem_found src (Array.mem_toList_iff.mp hi)
  exact ⟨f, Fragment.forall_mem_all Fragment.shapeOf_spelled _ f hf, hp⟩

/-- Only the last token of a source is its end. -/
theorem Scan.not_isEof {src : String} {t : Token} (ht : t ∈ (ofSource src).tokens) :
    t.isEof = false := by
  obtain ⟨f, hf, p, hp⟩ := exists_spelled ht
  exact hf.not_isEof hp

/-- Every token of a source is spelled and valued as its kind says. -/
theorem scan_regular (src : String) : ∀ t ∈ (scan src).1, t.Regular := by
  intro t ht
  rw [scan_tokens, List.mem_append, List.mem_singleton] at ht
  rcases ht with ht | rfl
  · obtain ⟨f, hf, p, hp⟩ := Scan.exists_spelled ht
    exact hf.regular hp
  · exact ⟨fun _ => rfl, rfl⟩

end Lox
