import Lox.Proofs.Source.Position

/-!
Sources put together from pieces. A line break keeps the fragments of two sources apart, and so
scanning them together says what it says of each alone, with the places of the second moved. A space
keeps words apart, and so the words of a source can be written out again with nothing else but
spaces in between.
-/

namespace Lox
open Character

/-! ### Behind a line break -/

/-- Scanning goes line by line. Behind a source that leaves nothing open, a line break and another
source add the tokens and the errors that scanning finds in the other one, with the lines, bytes and
tokens that come before it counted. Stray characters in the first source do not matter. -/
theorem scan_append_newline {a : String}
    (h : ∀ e ∈ (scan a).2, e.flaw ≠ .openString ∧ e.flaw ≠ .openComment) (b : String) :
    ∃ tokens eof, (scan a).1 = tokens ++ [eof] ∧ eof.kind = .eof ∧ (∀ t ∈ tokens, t.kind ≠ .eof) ∧
      let before : Offset := ⟨1 + a.toList.count '\n', a.utf8ByteSize + 1, tokens.length⟩
      (scan (a ++ "\n" ++ b)).1 = tokens ++ (scan b).1.map (Token.move before) ∧
      (scan (a ++ "\n" ++ b)).2 = (scan a).2 ++ (scan b).2.map (ScanError.move before) := by
  have hclosed : Fragment.Closed a.toList := closed_of_errors fun e he => (h e he).symm
  have hbefore : Offset.mk (1 + a.toList.count '\n') (a.utf8ByteSize + 1)
      (Scan.ofSource a).tokens.length = .behind a := by
    rw [Offset.behind, ← utf8ByteSize_ofList, String.ofList_toList, Nat.add_comm]
  refine ⟨_, _, scan_tokens a, rfl, fun t ht heof => ?_, ?_⟩
  · exact absurd (Scan.not_isEof ht) (by simp [Token.isEof, heof])
  · simp only [hbefore]
    exact ⟨scan_append_tokens hclosed b, scan_append_errors hclosed b⟩

/-- A number with a point behind it and a comment end at the line break, and the stray character
there is no obstacle. -/
theorem scan_append_newline_point :
    (∀ e ∈ (scan "1.@//é").2, e.flaw ≠ .openString ∧ e.flaw ≠ .openComment) ∧
    ∃ tokens eof, (scan "1.@//é").1 = tokens ++ [eof] ∧ eof.kind = .eof ∧
      (∀ t ∈ tokens, t.kind ≠ .eof) ∧
      let before : Offset := ⟨1 + "1.@//é".toList.count '\n', "1.@//é".utf8ByteSize + 1,
        tokens.length⟩
      (scan ("1.@//é" ++ "\n" ++ "2 \"")).1 = tokens ++ (scan "2 \"").1.map (Token.move before) ∧
      (scan ("1.@//é" ++ "\n" ++ "2 \"")).2 =
        (scan "1.@//é").2 ++ (scan "2 \"").2.map (ScanError.move before) := by
  have herrors : (scan "1.@//é").2 = [⟨.stray '@', 1⟩] := by
    rw [errors_of_splits (splits_iff.mpr rfl)]
    decide
  have h : ∀ e ∈ (scan "1.@//é").2, e.flaw ≠ .openString ∧ e.flaw ≠ .openComment := by
    rw [herrors]
    exact List.forall_mem_singleton.mpr ⟨nofun, nofun⟩
  exact ⟨h, scan_append_newline h "2 \""⟩

/-! ### In front of a space -/

namespace Fragment

/-- What comes behind a fragment is a space, or nothing at all. -/
def Apart (rest : List Char) : Prop := ∀ c ∈ rest.head?, c = ' '

theorem apart_nil : Apart [] := nofun

theorem apart_space (r : List Char) : Apart (' ' :: r) := fun _ h => (Option.some.inj h).symm

section
variable {p : Char → Bool} {c : Char} {body rest : List Char}

theorem Apart.run_eq (h : Apart rest) (hp : p ' ' = false) (hbody : ∀ d ∈ body, p d = true) :
    run p (body ++ rest) = body.length := by
  cases rest with
  | nil => rw [List.append_nil, run_all hbody]
  | cons d r =>
    obtain rfl := h d rfl
    exact Fragment.run_eq hbody hp

theorem Apart.head_ne (h : Apart rest) (hc : c ≠ ' ') : rest.head? ≠ some c :=
  fun hhead => hc (h c hhead)

/-- Digits in front of a space are a whole number. -/
theorem Apart.numberTail_whole (h : Apart rest) (hbody : ∀ d ∈ body, isDigit d = true) :
    numberTail (body ++ rest) = body.length := by
  rw [numberTail, h.run_eq rfl hbody, List.drop_left]
  cases rest with
  | nil => rfl
  | cons d r =>
    obtain rfl := h d rfl
    rfl

theorem Apart.numberTail_fraction {places : List Char} (h : Apart rest)
    (hbody : ∀ d ∈ body, isDigit d = true) (hc : isDigit c = true)
    (hplaces : ∀ d ∈ places, isDigit d = true) :
    numberTail (body ++ '.' :: c :: places ++ rest) = (body ++ '.' :: c :: places).length := by
  have hassoc : body ++ '.' :: c :: places ++ rest = body ++ '.' :: c :: (places ++ rest) := by simp
  rw [hassoc, Fragment.numberTail_fraction hbody hc, h.run_eq rfl hplaces]
  simp only [List.length_append, List.length_cons]
  omega

/-- A word of the program that stands in front of a space is cut off as it is. -/
theorem Apart.shapeOf_eq {s : Shape} {text rest' : List Char} (h : Apart rest)
    (hlexeme : Lexeme s (c :: text) rest') (htoken : s.isToken = true) :
    shapeOf c (text ++ rest) = (s, text.length) := by
  generalize htext : c :: text = cs at hlexeme
  cases hlexeme with
  | @string body _ hbody =>
    obtain ⟨rfl, rfl⟩ := List.cons.inj htext
    rw [shapeOf_quote, List.append_assoc, List.singleton_append, stringTail_closed hbody,
      List.length_append, List.length_singleton]
  | whole _ hds =>
    obtain ⟨hc, hds⟩ := List.forall_mem_cons.mp (htext ▸ hds)
    rw [shapeOf_digit hc, h.numberTail_whole hds]
  | @fraction ds ps _ hds hps hdigits =>
    obtain ⟨d, ds, rfl⟩ := List.exists_cons_of_ne_nil hds
    obtain ⟨q, ps, rfl⟩ := List.exists_cons_of_ne_nil hps
    obtain ⟨rfl, rfl⟩ : c = d ∧ text = ds ++ '.' :: q :: ps := List.cons.inj htext
    obtain ⟨hds, hps⟩ := List.forall_mem_append.mp hdigits
    obtain ⟨hc, hds⟩ := List.forall_mem_cons.mp hds
    obtain ⟨hq, hps⟩ := List.forall_mem_cons.mp hps
    rw [shapeOf_digit hc, h.numberTail_fraction hds hq hps]
  | word hc hcs =>
    obtain ⟨rfl, rfl⟩ := List.cons.inj htext
    rw [shapeOf_letter hc, h.run_eq (by decide) hcs]
  | operator hk =>
    rcases spelling_of_isMark hk with ⟨d, hd, hop⟩ | ⟨d, hd, hop⟩ <;>
      obtain ⟨rfl, rfl⟩ := List.cons.inj (htext.trans hd)
    · -- no slash, star or equals sign is behind it that it could go on with
      by_cases hslash : c = '/'
      · subst hslash
        obtain rfl := Option.some.inj hop
        exact slashTail_mark (h.head_ne (by decide)) (h.head_ne (by decide))
      · rw [shapeOf_other (other_of_operator₁ hop) hslash, List.nil_append,
          operatorTail_one (.inr (h.head_ne (by decide))), hop]
        rfl
    · obtain ⟨⟨k', hk'⟩, hslash⟩ := operator₁_of_operator₂ hop
      rw [shapeOf_other (other_of_operator₁ hk') hslash]
      exact operatorTail_two hop
  | _ => cases htoken

/-- A word of the program is the first fragment where it stands in front of a space. -/
theorem Apart.all_append {f : Fragment} {rest' : List Char} (h : Apart rest)
    (hlexeme : Lexeme f.shape f.text rest') (htoken : f.shape.isToken = true) :
    all (f.text ++ rest) = f :: all rest := by
  obtain ⟨shape, text⟩ := f
  obtain ⟨c, text, rfl⟩ := List.exists_cons_of_ne_nil hlexeme.ne_nil
  rw [List.cons_append, all_cons, h.shapeOf_eq hlexeme htoken, List.take_left, List.drop_left]

end

/-! ### Words with spaces in between -/

/-- A space between two words. -/
def space : Fragment := ⟨.blank, [' ']⟩

theorem all_space (r : List Char) : all (' ' :: r) = space :: all r := by
  rw [all_cons]
  rfl

/-- Words of a program with spaces in between are cut into these words and these spaces. -/
theorem all_spaced {fs : List Fragment}
    (hfs : ∀ f ∈ fs, (∃ rest, Lexeme f.shape f.text rest) ∧ f.shape.isToken = true) :
    all ((fs.intersperse space).flatMap (·.text)) = fs.intersperse space := by
  induction fs with
  | nil => rfl
  | cons f fs ih =>
    obtain ⟨⟨⟨rest, hlexeme⟩, htoken⟩, hfs⟩ := List.forall_mem_cons.mp hfs
    cases fs with
    | nil =>
      rw [List.intersperse_singleton, List.flatMap_singleton, ← List.append_nil f.text,
        apart_nil.all_append hlexeme htoken, all_nil]
    | cons g fs =>
      have hspace : space.text ++ ((g :: fs).intersperse space).flatMap (·.text) =
          ' ' :: ((g :: fs).intersperse space).flatMap (·.text) := rfl
      rw [List.intersperse_cons_cons, List.flatMap_cons, List.flatMap_cons, hspace,
        (apart_space _).all_append hlexeme htoken, all_space, ih hfs]

theorem filterMap_spaced {α : Type} {g : Fragment → Option α} (hg : g space = none)
    (fs : List Fragment) : (fs.intersperse space).filterMap g = fs.filterMap g := by
  induction fs with
  | nil => rfl
  | cons f fs ih =>
    cases fs with
    | nil => rfl
    | cons f' fs =>
      rw [List.intersperse_cons_cons, List.filterMap_cons, List.filterMap_cons_none hg, ih,
        ← List.filterMap_cons]

theorem flatMap_spaced (fs : List Fragment) :
    (fs.intersperse space).flatMap (·.text) = [' '].intercalate (fs.map (·.text)) := by
  induction fs with
  | nil => rfl
  | cons f fs ih =>
    cases fs with
    | nil => simp
    | cons f' fs =>
      rw [List.intersperse_cons_cons, List.flatMap_cons, List.flatMap_cons, ih]
      simp [List.intercalate_cons_cons, space]

end Fragment

/-! ### What tokens say without their places -/

/-- A token apart from its place: its kind, its text and its value. -/
def Token.word (t : Token) : Kind × String × Literal := (t.kind, t.lexeme, t.value)

namespace Fragment

/-- The kind, the text and the value of a fragment that is a word of the program. -/
def word? (f : Fragment) : Option (Kind × String × Literal) :=
  ((f.item? .start).bind Item.token?).map Token.word

/-- A fragment is the same word at every place. -/
theorem map_word (f : Fragment) (p : Place) :
    ((f.item? p).bind Item.token?).map Token.word = f.word? := by
  rw [word?, item?, item?]
  cases f.shape <;> rfl

theorem map_text (f : Fragment) :
    f.word?.map (·.2.1) = if f.shape.isToken then some (String.ofList f.text) else none := by
  rw [word?, item?]
  cases f.shape <;> rfl

/-- Only words of the program say a word. -/
theorem filterMap_word (fs : List Fragment) :
    (fs.filter (·.shape.isToken)).filterMap word? = fs.filterMap word? := by
  rw [List.filterMap_filter]
  refine congrArg (List.filterMap · fs) (funext fun f => ?_)
  obtain ⟨shape, text⟩ := f
  cases shape <;> rfl

end Fragment

namespace Scan

theorem words_foldl (fs : List Fragment) (s : Scan) :
    (fs.foldl step s).tokens.map Token.word =
      s.tokens.map Token.word ++ fs.filterMap Fragment.word? := by
  induction fs generalizing s with
  | nil => exact (List.append_nil _).symm
  | cons f fs ih =>
    rw [List.foldl_cons, ih, tokens_step, List.map_append, List.append_assoc, List.filterMap_cons,
      ← f.map_word s.place]
    cases (f.item? s.place).bind Item.token? <;> rfl

theorem words_ofSource (src : String) : (ofSource src).tokens.map Token.word =
    (Fragment.all src.toList).filterMap Fragment.word? := words_foldl _ _

end Scan

/-- The words of a source and its end. -/
theorem scan_words (src : String) : (scan src).1.map Token.word =
    (Fragment.all src.toList).filterMap Fragment.word? ++ [(.eof, "", .nil)] := by
  rw [scan_tokens, List.map_append, Scan.words_ofSource]
  rfl

/-- The texts of the tokens are the texts of the fragments that are words. -/
theorem lexemes_ofSource (src : String) : (Scan.ofSource src).tokens.map (·.lexeme) =
    ((Fragment.all src.toList).filter (·.shape.isToken)).map (String.ofList ·.text) := by
  have hlexeme : (·.lexeme) = (·.2.1) ∘ Token.word := rfl
  rw [hlexeme, ← List.map_map, Scan.words_ofSource, List.map_filterMap]
  simp only [Fragment.map_text]
  rw [← List.filterMap_filter, ← List.filterMap_eq_map]
  rfl

/-- Nothing is wrong with a source that has no malformed fragments. -/
theorem errors_eq_nil {src : String}
    (h : (Fragment.all src.toList).filterMap (·.shape.flaw?) = []) : (scan src).2 = [] := by
  rw [List.filterMap_eq_nil_iff] at h
  rw [errors_of_splits (splits_iff.mpr rfl), List.filterMap_eq_nil_iff]
  intro q hq
  have hmem : q.2 ∈ Fragment.all src.toList := by
    rw [← map_snd_placed [] (Fragment.all src.toList)]
    exact List.mem_map_of_mem hq
  rw [Fragment.error?, h _ hmem]
  rfl

theorem Shape.flaw?_of_isToken {s : Shape} (h : s.isToken = true) : s.flaw? = none := by
  cases s <;> first | rfl | cases h

/-- The words of a source stand for themselves. Written out again with single spaces in between,
they are the same words, and nothing is wrong with them, whatever was wrong with the source. -/
theorem scan_respaced (src : String) :
    let words := (scan src).1.filter (!·.isEof)
    let again := scan (" ".intercalate (words.map (·.lexeme)))
    again.2 = [] ∧ again.1.map Token.word = (scan src).1.map Token.word := by
  intro words again
  let fs := (Fragment.all src.toList).filter (·.shape.isToken)
  have hfs : ∀ f ∈ fs, (∃ rest, Lexeme f.shape f.text rest) ∧ f.shape.isToken = true :=
    fun f hf => by
      obtain ⟨hmem, htoken⟩ := List.mem_filter.mp hf
      exact ⟨(splits_iff.mpr rfl).exists_lexeme f hmem, htoken⟩
  have hwords : words = (Scan.ofSource src).tokens := by
    have hall : (Scan.ofSource src).tokens.filter (!·.isEof) = (Scan.ofSource src).tokens :=
      List.filter_eq_self.mpr fun t ht => by simp [Scan.not_isEof ht]
    simp only [words, scan_tokens, List.filter_append, hall]
    exact List.append_nil _
  have hagain : Fragment.all (" ".intercalate (words.map (·.lexeme))).toList =
      fs.intersperse Fragment.space := by
    rw [String.toList_intercalate, hwords, lexemes_ofSource, List.map_map,
      ← Fragment.all_spaced hfs, Fragment.flatMap_spaced]
    simp [Function.comp_def, fs]
  constructor
  · refine errors_eq_nil ?_
    rw [hagain, Fragment.filterMap_spaced rfl, List.filterMap_eq_nil_iff]
    exact fun f hf => Shape.flaw?_of_isToken (hfs f hf).2
  · rw [scan_words, scan_words, hagain, Fragment.filterMap_spaced rfl, Fragment.filterMap_word]

-- without the spaces the slashes would open a comment, and the equals signs would be one mark
example :
    " ".intercalate (((scan "/ /@= \n=").1.filter (!·.isEof)).map (·.lexeme)) = "/ / = =" := by cbv

end Lox
