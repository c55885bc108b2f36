import Lox.Proofs.Source.Split
import Mathlib.Data.List.Forall2
import Mathlib.Data.Nat.Digits.Defs

/-!
What scanning says of the fragments of a source. Fragments that are words of the program say a token
each, and those that are malformed say an error each, in the order of the source and with the place
that they have there.
-/

namespace Lox
open Character

/-! ### Which fragments say what -/

/-- Whether fragments of a shape are words of the program. -/
def Shape.isToken : Shape → Bool
  | .string | .number | .word | .operator _ => true
  | _ => false

/-- What is wrong with fragments of a shape, if anything. -/
def Shape.flaw? : Shape → Option ScanFlaw
  | .stray c => some (.stray c)
  | .openComment => some .openComment
  | .openString => some .openString
  | _ => none

/-- The keywords of the language. -/
def Kind.isKeyword : Kind → Bool
  | .kwAnd | .kwClass | .kwElse | .kwFalse | .kwFor | .kwFun | .kwIf | .kwNil | .kwOr | .kwPrint
  | .kwReturn | .kwSuper | .kwThis | .kwTrue | .kwVar | .kwWhile => true
  | _ => false

/-- Two keywords denote a value. -/
def Kind.truth : Kind → Literal
  | .kwTrue => .bool true
  | .kwFalse => .bool false
  | _ => .nil

/-- The number that digits spell in the decimal system. -/
def digitsValue (ds : List Char) : Nat :=
  Nat.ofDigits 10 (ds.reverse.map fun d => d.toNat - '0'.toNat)

/-- `Reads f k v`: the fragment `f` is a token of the kind `k` that denotes `v`. -/
inductive Reads : Fragment → Kind → Literal → Prop where
  | string (body : List Char) :
      Reads ⟨.string, '"' :: (body ++ ['"'])⟩ .string (.str (String.ofList body))
  | whole {ds : List Char} : (∀ d ∈ ds, isDigit d = true) →
      Reads ⟨.number, ds⟩ .number (.num (Float.ofScientific (digitsValue ds) true 0))
  | fraction {ds ps : List Char} : (∀ d ∈ ds ++ ps, isDigit d = true) →
      Reads ⟨.number, ds ++ '.' :: ps⟩ .number
        (.num (Float.ofScientific (digitsValue (ds ++ ps)) true ps.length))
  | yes : Reads ⟨.word, "true".toList⟩ .kwTrue (.bool true)
  | no : Reads ⟨.word, "false".toList⟩ .kwFalse (.bool false)
  | keyword {k : Kind} : k.isKeyword = true → k ≠ .kwTrue → k ≠ .kwFalse →
      Reads ⟨.word, k.spelling.toList⟩ k .nil
  | name {text : List Char} : (∀ k : Kind, k.isKeyword = true → text ≠ k.spelling.toList) →
      Reads ⟨.word, text⟩ .identifier .nil
  | operator {k : Kind} : k.isMark = true → Reads ⟨.operator k, k.spelling.toList⟩ k .nil

/-- A token says where its fragment stands: behind the characters `before`, and on the line on
which it ends. -/
structure Token.Says (before : List Char) (f : Fragment) (t : Token) : Prop where
  reads : Reads f t.kind t.value
  lexeme : t.lexeme = String.ofList f.text
  line : t.line = 1 + (before ++ f.text).count '\n'
  col : t.col = bytesOf before

/-- The error of a fragment behind the characters `before`, if it is malformed. -/
def Fragment.error? (before : List Char) (f : Fragment) : Option ScanError :=
  f.shape.flaw?.map (⟨·, 1 + (before ++ f.text).count '\n'⟩)

/-! ### Words and numbers -/

theorem wordKind_keyword {k : Kind} (h : k.isKeyword = true) : wordKind k.spelling = k := by
  cases k <;> first | rfl | cases h

/-- A word is the keyword that is spelled so, or else a name. -/
theorem wordKind_cases (w : String) :
    (∃ k : Kind, k.isKeyword = true ∧ w = k.spelling ∧ wordKind w = k) ∨
      wordKind w = .identifier ∧ ∀ k : Kind, k.isKeyword = true → w ≠ k.spelling := by
  rcases wordKind_spelling w with hname | ⟨hopen, hw⟩
  · refine .inr ⟨hname, fun k hk hw => ?_⟩
    rw [hw, wordKind_keyword hk] at hname
    rw [hname] at hk
    cases hk
  · have hself : wordKind (wordKind w).spelling = wordKind w := by rw [← hw]
    refine .inl ⟨_, ?_, hw, rfl⟩
    -- of all kinds only keywords are what their own spelling means
    revert hself hopen
    cases wordKind w <;> decide

theorem natural_eq (ds : List Char) : Decimal.natural ds = digitsValue ds := by
  rw [Decimal.natural, digitsValue, List.foldl_eq_foldr_reverse]
  induction ds.reverse with
  | nil => rfl
  | cons d ds ih =>
    rw [List.foldr_cons, ih, List.map_cons, Nat.ofDigits_cons, Nat.add_comm]

theorem ne_point {ds : List Char} (h : ∀ d ∈ ds, isDigit d = true) :
    ∀ d ∈ ds, (d != '.') = true := by
  intro d hd
  refine bne_iff_ne.mpr ?_
  rintro rfl
  cases h _ hd

/-- Digits alone have no fraction. -/
theorem read_whole {ds : List Char} (h : ∀ d ∈ ds, isDigit d = true) :
    Decimal.read ds = Float.ofScientific (digitsValue ds) true 0 := by
  have hall := ne_point h
  rw [Decimal.read, List.takeWhile_eq_self_iff.mpr hall, List.dropWhile_eq_nil_iff.mpr hall]
  simp [natural_eq]

/-- The fraction is what stands behind the point. -/
theorem read_fraction {ds ps : List Char} (h : ∀ d ∈ ds, isDigit d = true) :
    Decimal.read (ds ++ '.' :: ps) =
      Float.ofScientific (digitsValue (ds ++ ps)) true ps.length := by
  have hall := ne_point h
  rw [Decimal.read, List.takeWhile_append_of_pos hall, List.dropWhile_append_of_pos hall,
    List.takeWhile_cons_of_neg (by decide), List.dropWhile_cons_of_neg (by decide)]
  simp [natural_eq]

/-! ### One fragment -/

namespace Fragment

theorem reads_keyword {k : Kind} (h : k.isKeyword = true) :
    Reads ⟨.word, k.spelling.toList⟩ k k.truth := by
  by_cases htrue : k = .kwTrue
  · subst htrue
    exact .yes
  by_cases hfalse : k = .kwFalse
  · subst hfalse
    exact .no
  have hnil : k.truth = .nil := by cases k <;> first | rfl | contradiction
  exact hnil ▸ .keyword h htrue hfalse

/-- A fragment that is a word of the program says the token that it is. -/
theorem item?_token {shape : Shape} {text rest : List Char} (hlexeme : Lexeme shape text rest)
    (h : shape.isToken = true) (p : Place) : ∃ k v, Reads ⟨shape, text⟩ k v ∧
      item? ⟨shape, text⟩ p = some (toToken ⟨shape, text⟩ (endLine ⟨shape, text⟩ p) p k v) := by
  cases hlexeme with
  | @string body =>
    refine ⟨_, _, .string body, ?_⟩
    simp [item?]
  | whole _ hds =>
    refine ⟨_, _, .whole hds, ?_⟩
    simp only [item?, read_whole hds]
  | fraction _ _ hds =>
    refine ⟨_, _, .fraction hds, ?_⟩
    simp only [item?, read_fraction fun d hd => hds d (List.mem_append_left _ hd)]
  | @word c cs =>
    rcases wordKind_cases (String.ofList (c :: cs)) with ⟨k, hk, hspelling, hkind⟩ | ⟨hkind, hname⟩
    · have hreads := reads_keyword hk
      rw [← hspelling, String.toList_ofList] at hreads
      refine ⟨_, _, hreads, ?_⟩
      simp only [item?, hkind]
      rfl
    · refine ⟨_, _, .name fun k hk htext => hname k hk ?_, ?_⟩
      · rw [htext, String.ofList_toList]
      · simp only [item?, hkind]
  | operator hk => exact ⟨_, _, .operator hk, rfl⟩
  | _ => cases h

/-- A malformed fragment says what is wrong with it. -/
theorem item?_flaw {f : Fragment} {x : ScanFlaw} (h : f.shape.flaw? = some x) (p : Place) :
    f.item? p = some (.error ⟨x, f.endLine p⟩) := by
  obtain ⟨shape, text⟩ := f
  cases shape <;> cases h <;> rfl

/-- Blanks and comments say nothing. -/
theorem item?_none {f : Fragment} (h : f.shape.isToken = false) (h' : f.shape.flaw? = none)
    (p : Place) : f.item? p = none := by
  obtain ⟨shape, text⟩ := f
  cases shape with
  | blank | lineComment | blockComment => rfl
  | string | number | word | operator => cases h
  | stray | openComment | openString => cases h'

end Fragment

/-! ### All fragments -/

/-- Fragments, each with all the characters before it. -/
def placed : List Char → List Fragment → List (List Char × Fragment)
  | _, [] => []
  | before, f :: fs => (before, f) :: placed (before ++ f.text) fs

/-- The errors that were found. -/
def Scan.errors (s : Scan) : List ScanError := s.found.toList.filterMap Item.error?

section
variable {s : Scan} {before : List Char} {f : Fragment} {rest : List Char}

theorem Scan.filterMap_step {β : Type} (g : Item → Option β) (s : Scan) (f : Fragment) :
    (s.step f).found.toList.filterMap g =
      s.found.toList.filterMap g ++ ((f.item? s.place).bind g).toList := by
  rw [step, Array.toList_append, List.filterMap_append]
  cases f.item? s.place with
  | none => rfl
  | some i => cases hg : g i <;> simp [hg]

theorem Scan.tokens_step (s : Scan) (f : Fragment) :
    (s.step f).tokens = s.tokens ++ ((f.item? s.place).bind Item.token?).toList :=
  filterMap_step Item.token? s f

theorem Scan.errors_step (s : Scan) (f : Fragment) :
    (s.step f).errors = s.errors ++ ((f.item? s.place).bind Item.error?).toList :=
  filterMap_step Item.error? s f

theorem Scan.counts_start : (⟨.start, #[]⟩ : Scan).Counts [] := rfl

theorem Scan.Counts.endLine (h : s.Counts before) (f : Fragment) :
    f.endLine s.place = 1 + (before ++ f.text).count '\n' := by
  rw [Fragment.endLine, h, List.count_append, Nat.add_assoc]

/-- The token that one more fragment adds, if it is a word. -/
theorem Scan.Counts.tokens_step (h : s.Counts before) (hlexeme : Lexeme f.shape f.text rest) :
    ∃ ts, (s.step f).tokens = s.tokens ++ ts ∧
      List.Forall₂ (fun q t => t.Says q.1 q.2) ([(before, f)].filter (·.2.shape.isToken)) ts := by
  rw [Scan.tokens_step]
  cases htoken : f.shape.isToken with
  | true =>
    obtain ⟨k, v, hreads, hitem⟩ := Fragment.item?_token hlexeme htoken s.place
    have hfilter : [(before, f)].filter (·.2.shape.isToken) = [(before, f)] := by simp [htoken]
    refine ⟨_, rfl, ?_⟩
    rw [show f.item? s.place = _ from hitem, hfilter]
    exact .cons ⟨hreads, rfl, h.endLine f, congrArg Place.col h⟩ .nil
  | false =>
    have hfilter : [(before, f)].filter (·.2.shape.isToken) = [] := by simp [htoken]
    refine ⟨_, rfl, ?_⟩
    rw [hfilter]
    cases hflaw : f.shape.flaw? with
    | none =>
      rw [Fragment.item?_none htoken hflaw]
      exact .nil
    | some x =>
      rw [Fragment.item?_flaw hflaw]
      exact .nil

/-- The error that one more fragment adds, if it is malformed. -/
theorem Scan.Counts.errors_step (h : s.Counts before) (hlexeme : Lexeme f.shape f.text rest) :
    (s.step f).errors = s.errors ++ (f.error? before).toList := by
  rw [Scan.errors_step, Fragment.error?]
  cases hflaw : f.shape.flaw? with
  | some x =>
    rw [Fragment.item?_flaw hflaw, h.endLine f]
    rfl
  | none =>
    cases htoken : f.shape.isToken with
    | true =>
      obtain ⟨k, v, -, hitem⟩ := Fragment.item?_token hlexeme htoken s.place
      rw [show f.item? s.place = _ from hitem]
      rfl
    | false =>
      rw [Fragment.item?_none htoken hflaw]
      rfl

/-- What all fragments add. -/
theorem Scan.Counts.tokens_foldl {fs : List Fragment} (h : s.Counts before)
    (hfs : ∀ f ∈ fs, ∃ rest, Lexeme f.shape f.text rest) :
    ∃ ts, (fs.foldl Scan.step s).tokens = s.tokens ++ ts ∧
      List.Forall₂ (fun q t => t.Says q.1 q.2)
        ((placed before fs).filter (·.2.shape.isToken)) ts := by
  induction fs generalizing s before with
  | nil => exact ⟨[], (List.append_nil _).symm, .nil⟩
  | cons f fs ih =>
    obtain ⟨⟨rest, hf⟩, hfs⟩ := List.forall_mem_cons.mp hfs
    obtain ⟨ts, hts, htold⟩ := h.tokens_step hf
    obtain ⟨ts', hts', htold'⟩ := ih (h.step f) hfs
    refine ⟨ts ++ ts', ?_, ?_⟩
    · rw [List.foldl_cons, hts', hts, List.append_assoc]
    · rw [placed, ← List.singleton_append, List.filter_append]
      exact List.rel_append htold htold'

theorem Scan.Counts.errors_foldl {fs : List Fragment} (h : s.Counts before)
    (hfs : ∀ f ∈ fs, ∃ rest, Lexeme f.shape f.text rest) :
    (fs.foldl Scan.step s).errors =
      s.errors ++ (placed before fs).filterMap fun q => q.2.error? q.1 := by
  induction fs generalizing s before with
  | nil => exact (List.append_nil _).symm
  | cons f fs ih =>
    obtain ⟨⟨rest, hf⟩, hfs⟩ := List.forall_mem_cons.mp hfs
    rw [List.foldl_cons, ih (h.step f) hfs, h.errors_step hf, List.append_assoc, placed,
      List.filterMap_cons]
    cases f.error? before <;> rfl

end

/-! ### Sources -/

/-- The tokens of a source are those of its fragments and then its end. -/
theorem tokens_of_splits {src : String} {fs : List Fragment} (h : Splits src.toList fs) :
    List.Forall₂ (fun q t => t.Says q.1 q.2) ((placed [] fs).filter (·.2.shape.isToken))
      (Scan.ofSource src).tokens := by
  obtain rfl := splits_iff.mp h
  obtain ⟨ts, hts, htold⟩ := Scan.counts_start.tokens_foldl h.exists_lexeme
  rw [Scan.ofSource, hts]
  exact htold

theorem errors_of_splits {src : String} {fs : List Fragment} (h : Splits src.toList fs) :
    (scan src).2 = (placed [] fs).filterMap fun q => q.2.error? q.1 := by
  obtain rfl := splits_iff.mp h
  rw [scan_errors]
  exact Scan.counts_start.errors_foldl h.exists_lexeme

theorem map_snd_placed (before : List Char) (fs : List Fragment) :
    (placed before fs).map Prod.snd = fs := by
  induction fs generalizing before with
  | nil => rfl
  | cons f fs ih => rw [placed, List.map_cons, ih]

/-- Scanning follows the lexical grammar. Every source splits in just one way into fragments that
are the longest at their places. Those that are words of the program are its tokens, one by one,
with the kinds and values that they spell, and the end of the source is one token more. Those that
are malformed are its errors, one by one. -/
theorem scan_splits (src : String) :
    ∃ fs, (∀ gs, Splits src.toList gs ↔ gs = fs) ∧
      (∃ tokens eof, (scan src).1 = tokens ++ [eof] ∧
        eof.kind = .eof ∧ eof.lexeme = "" ∧ eof.value = .nil ∧
        List.Forall₂ (fun f t => t.lexeme = String.ofList f.text ∧ Reads f t.kind t.value)
          (fs.filter (·.shape.isToken)) tokens) ∧
      (scan src).2.map ScanError.flaw = fs.filterMap (·.shape.flaw?) := by
  have hsplits : Splits src.toList (Fragment.all src.toList) := splits_iff.mpr rfl
  refine ⟨_, fun gs => splits_iff, ⟨_, _, scan_tokens src, rfl, rfl, rfl, ?_⟩, ?_⟩
  · conv => lhs; rw [← map_snd_placed [] (Fragment.all src.toList)]
    rw [List.filter_map, List.forall₂_map_left_iff]
    exact (tokens_of_splits hsplits).imp fun _ _ h => ⟨h.lexeme, h.reads⟩
  · conv => rhs; rw [← map_snd_placed [] (Fragment.all src.toList)]
    rw [errors_of_splits hsplits, List.map_filterMap, List.filterMap_map]
    refine congrArg (List.filterMap · _) (funext fun q => ?_)
    cases hflaw : q.2.shape.flaw? <;> simp [Fragment.error?, hflaw]

-- no digit is behind the point, and the star that opens the comment does not close it
example : (Fragment.all "1./*/".toList).map (·.shape) =
    [.number, .operator .dot, .openComment] := by
  decide

end Lox
