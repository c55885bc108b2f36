import Lox.Proofs.Source.Joined
import Mathlib.Data.List.TakeWhile

/-!
Which characters may stand together as a fragment. The lexical grammar only says what fragments look
like. Of all that could stand at the front of a source, scanning takes the longest.
-/

namespace Lox
open Character

/-- A character that is neither a blank nor a digit, and starts neither a word nor a string. -/
structure Other (c : Char) : Prop where
  blank : isBlank c = false
  digit : isDigit c = false
  letter : isLetter c = false
  quote : c ≠ '"'

/-- A character that no other fragment starts with. -/
structure Unexpected (c : Char) : Prop extends Other c where
  mark : ∀ k : Kind, k.isMark = true → k.spelling.toList.head? ≠ some c

/-- `Lexeme s text rest`: some characters may be a fragment of the shape `s` when `rest` is what
comes behind them. -/
inductive Lexeme : Shape → List Char → List Char → Prop where
  | blank {c rest} : c ∈ [' ', '\t', '\r', '\n'] → Lexeme .blank [c] rest
  | lineComment {body rest} : '\n' ∉ body → Lexeme .lineComment ('/' :: '/' :: body) rest
  | blockComment {body rest} : ¬['*', '/'] <:+: body →
      Lexeme .blockComment ('/' :: '*' :: (body ++ ['*', '/'])) rest
  | string {body rest} : '"' ∉ body → Lexeme .string ('"' :: (body ++ ['"'])) rest
  | whole {ds rest} : ds ≠ [] → (∀ d ∈ ds, isDigit d = true) → Lexeme .number ds rest
  | fraction {ds ps rest} : ds ≠ [] → ps ≠ [] → (∀ d ∈ ds ++ ps, isDigit d = true) →
      Lexeme .number (ds ++ '.' :: ps) rest
  | word {c cs rest} : isLetter c = true → (∀ d ∈ cs, isWordPart d = true) →
      Lexeme .word (c :: cs) rest
  | operator {k rest} : k.isMark = true → Lexeme (.operator k) k.spelling.toList rest
  | stray {c rest} : Unexpected c → Lexeme (.stray c) [c] rest
  | openComment {body} : ¬['*', '/'] <:+: body → Lexeme .openComment ('/' :: '*' :: body) []
  | openString {body} : '"' ∉ body → Lexeme .openString ('"' :: body) []

namespace Fragment

/-! ### Runs of characters -/

section
variable {p : Char → Bool} {body rest r : List Char}

theorem take_run (p : Char → Bool) (r : List Char) : r.take (run p r) = r.takeWhile p := by
  conv => lhs; arg 2; rw [← List.takeWhile_append_dropWhile (p := p) (l := r)]
  exact List.take_left' rfl

theorem drop_run (p : Char → Bool) (r : List Char) : r.drop (run p r) = r.dropWhile p := by
  conv => lhs; arg 2; rw [← List.takeWhile_append_dropWhile (p := p) (l := r)]
  exact List.drop_left' rfl

theorem le_run (h : ∀ c ∈ body, p c = true) : body.length ≤ run p (body ++ rest) := by
  rw [run, List.takeWhile_append_of_pos h, List.length_append]
  exact Nat.le_add_right _ _

theorem run_eq {c : Char} (h : ∀ c ∈ body, p c = true) (hc : p c = false) :
    run p (body ++ c :: rest) = body.length := by
  rw [run, List.takeWhile_append_of_pos h, List.takeWhile_cons_of_neg (by simp [hc]),
    List.append_nil]

theorem run_all (h : ∀ c ∈ r, p c = true) : run p r = r.length :=
  congrArg List.length (List.takeWhile_eq_self_iff.mpr h)

end

/-! ### Comments -/

section
variable {c : Char} {body rest r : List Char} {n m : Nat}

/-- Nothing is closed where no star with a slash stands. -/
theorem pastClose_cons (h : ¬['*', '/'] <+: c :: r) :
    pastClose n (c :: r) = pastClose (n + 1) r := by
  rw [pastClose]
  rintro r' rfl rfl
  exact h ⟨r', rfl⟩

theorem pastClose_eq (h : ¬['*', '/'] <:+: body) :
    pastClose n (body ++ '*' :: '/' :: rest) = some (n + body.length + 2) := by
  induction body generalizing n with
  | nil => rfl
  | cons c body ih =>
    rw [List.infix_cons_iff, not_or] at h
    rw [List.cons_append, pastClose_cons, ih h.2]
    · simp only [List.length_cons, Option.some.injEq]
      omega
    · -- the star that closes is not followed by another one
      rintro ⟨r, hr⟩
      cases body with
      | nil => simp at hr
      | cons d body =>
        simp only [List.cons_append, List.nil_append, List.cons.injEq] at hr
        exact h.1 ⟨body, by rw [hr.1, hr.2.1]; rfl⟩

theorem pastClose_none (h : ¬['*', '/'] <:+: r) : pastClose n r = none := by
  induction r generalizing n with
  | nil => rfl
  | cons c r ih =>
    rw [List.infix_cons_iff, not_or] at h
    rw [pastClose_cons h.1, ih h.2]

/-- Either something closes for the first time, or nothing does. -/
theorem exists_close (r : List Char) :
    (∃ body rest, r = body ++ '*' :: '/' :: rest ∧ ¬['*', '/'] <:+: body) ∨
      ¬['*', '/'] <:+: r := by
  induction r with
  | nil => exact .inr (by decide)
  | cons c r ih =>
    by_cases hc : ['*', '/'] <+: c :: r
    · obtain ⟨rest, hrest⟩ := hc
      exact .inl ⟨[], rest, hrest.symm, by decide⟩
    · rcases ih with ⟨body, rest, rfl, hbody⟩ | hr
      · refine .inl ⟨c :: body, rest, rfl, ?_⟩
        rw [List.infix_cons_iff, not_or]
        refine ⟨fun hfront => hc (hfront.trans ?_), hbody⟩
        exact (List.prefix_append (c :: body) _)
      · refine .inr ?_
        rw [List.infix_cons_iff, not_or]
        exact ⟨hc, hr⟩

theorem slashTail_closed (h : ¬['*', '/'] <:+: body) :
    slashTail ('*' :: (body ++ '*' :: '/' :: rest)) = (.blockComment, body.length + 3) := by
  rw [slashTail, pastClose_eq h]
  simp only [Prod.mk.injEq, true_and]
  omega

theorem slashTail_open (h : ¬['*', '/'] <:+: r) :
    slashTail ('*' :: r) = (.openComment, r.length + 1) := by
  rw [slashTail, pastClose_none h]

theorem slashTail_mark (hslash : r.head? ≠ some '/') (hstar : r.head? ≠ some '*') :
    slashTail r = (.operator .slash, 0) := by
  rw [slashTail]
  · rintro r' rfl
    exact hslash rfl
  · rintro r' rfl
    exact hstar rfl

/-! ### Strings -/

theorem stringTail_closed (h : '"' ∉ body) :
    stringTail (body ++ '"' :: rest) = (.string, body.length + 1) := by
  have hrun : run (· != '"') (body ++ '"' :: rest) = body.length :=
    run_eq (fun d hd => bne_iff_ne.mpr (ne_of_mem_of_not_mem hd h)) rfl
  rw [stringTail, hrun, if_pos (by simp)]

theorem stringTail_open (h : '"' ∉ r) : stringTail r = (.openString, r.length) := by
  have hrun : run (· != '"') r = r.length :=
    run_all fun d hd => bne_iff_ne.mpr (ne_of_mem_of_not_mem hd h)
  rw [stringTail, hrun, if_neg (Nat.lt_irrefl _)]

/-! ### Numbers -/

theorem numberTail_fraction {d : Char} (hbody : ∀ d ∈ body, isDigit d = true)
    (hd : isDigit d = true) :
    numberTail (body ++ '.' :: d :: rest) = body.length + 2 + run isDigit rest := by
  rw [numberTail, run_eq hbody rfl]
  simp [hd]

theorem run_le_numberTail (r : List Char) : run isDigit r ≤ numberTail r := by
  rw [numberTail]
  split
  · split <;> omega
  · exact Nat.le_refl _

/-- A number goes on with digits alone, or with a point and more digits behind them. -/
theorem numberTail_cases (r : List Char) : numberTail r = run isDigit r ∨
    ∃ body d rest, r = body ++ '.' :: d :: rest ∧ (∀ d ∈ body, isDigit d = true) ∧
      isDigit d = true := by
  rw [numberTail]
  split
  · next d r' hdrop =>
    split
    · next hd =>
      refine .inr ⟨r.takeWhile isDigit, d, r', ?_, fun _ => List.mem_takeWhile_imp, hd⟩
      rw [drop_run] at hdrop
      rw [← hdrop, List.takeWhile_append_dropWhile]
    · exact .inl rfl
  · exact .inl rfl

/-! ### Marks -/

/-- A mark is a character of its own, or one with an equals sign behind it. -/
theorem spelling_of_isMark {k : Kind} (h : k.isMark = true) :
    (∃ c, k.spelling.toList = [c] ∧ operator₁ c = some k) ∨
      ∃ c, k.spelling.toList = [c, '='] ∧ operator₂ c = some k := by
  cases k <;> first | exact .inl ⟨_, rfl, rfl⟩ | exact .inr ⟨_, rfl, rfl⟩ | cases h

theorem operatorTail_two {k : Kind} (h : operator₂ c = some k) :
    operatorTail c ('=' :: r) = (.operator k, 1) := by
  simp [operatorTail, h]

theorem operatorTail_one (h : operator₂ c = none ∨ r.head? ≠ some '=') :
    operatorTail c r = ((operator₁ c).elim (.stray c) .operator, 0) := by
  rw [operatorTail]
  · cases operator₁ c <;> rfl
  · rintro k r' hk rfl
    rcases h with h | h
    · simp [hk] at h
    · exact h rfl

/-! ### Classes of characters -/

theorem isBlank_iff : isBlank c = true ↔ c ∈ [' ', '\t', '\r', '\n'] := by
  simp [isBlank, or_assoc]

theorem isBlank_of_isDigit (h : isDigit c = true) : isBlank c = false := by
  refine Bool.eq_false_iff.mpr fun hblank => ?_
  rcases by simpa using isBlank_iff.mp hblank with rfl | rfl | rfl | rfl <;> cases h

theorem isBlank_of_isLetter (h : isLetter c = true) : isBlank c = false := by
  refine Bool.eq_false_iff.mpr fun hblank => ?_
  rcases by simpa using isBlank_iff.mp hblank with rfl | rfl | rfl | rfl <;> cases h

theorem isDigit_of_isLetter (h : isLetter c = true) : isDigit c = false := by
  refine Bool.eq_false_iff.mpr fun hdigit => ?_
  obtain ⟨hlow, hhigh⟩ : 48 ≤ c.toNat ∧ c.toNat ≤ 57 := by
    simpa [isDigit, Char.isDigit, UInt32.le_iff_toNat_le] using hdigit
  rw [isLetter, if_pos (by omega)] at h
  -- the digits come before both the capitals and the small letters
  rcases Bool.or_eq_true_iff.mp h with hupper | hlower
  · obtain ⟨hcapital, -⟩ : 'A'.val ≤ c.val ∧ c.val ≤ 'Z'.val := of_decide_eq_true hupper
    have hletter : 65 ≤ c.toNat := UInt32.le_iff_toNat_le.mp hcapital
    omega
  · have hsmall : 'a'.val ≤ c.val := of_decide_eq_true (Bool.and_eq_true_iff.mp hlower).1
    have hletter : 97 ≤ c.toNat := UInt32.le_iff_toNat_le.mp hsmall
    omega

theorem other_of_operator₁ {k : Kind} (h : operator₁ c = some k) : Other c := by
  unfold operator₁ at h
  split at h <;> first | exact ⟨rfl, rfl, rfl, by decide⟩ | cases h

/-- What is a mark with an equals sign behind it is one without it too. -/
theorem operator₁_of_operator₂ {k : Kind} (h : operator₂ c = some k) :
    (∃ k', operator₁ c = some k') ∧ c ≠ '/' := by
  unfold operator₂ at h
  split at h <;> first | exact ⟨⟨_, rfl⟩, by decide⟩ | cases h

theorem unexpected_iff : Unexpected c ↔ Other c ∧ operator₁ c = none := by
  constructor
  · intro h
    refine ⟨h.toOther, Option.eq_none_iff_forall_ne_some.mpr fun k hk => ?_⟩
    obtain ⟨hmark, hspelling⟩ := operator₁_spelling hk
    exact h.mark k hmark (by rw [← hspelling, String.toList_ofList]; rfl)
  · rintro ⟨h, hnone⟩
    refine ⟨h, fun k hk hhead => ?_⟩
    rcases spelling_of_isMark hk with ⟨d, hd, hop⟩ | ⟨d, hd, hop⟩
    · obtain rfl : d = c := by simpa [hd] using hhead
      simp [hnone] at hop
    · obtain rfl : d = c := by simpa [hd] using hhead
      obtain ⟨⟨k', hk'⟩, -⟩ := operator₁_of_operator₂ hop
      simp [hnone] at hk'

/-! ### The fragment that comes first -/

theorem shapeOf_blank (h : isBlank c = true) : shapeOf c r = (.blank, 0) := by
  rw [shapeOf, if_pos h]

theorem shapeOf_digit (h : isDigit c = true) : shapeOf c r = (.number, numberTail r) := by
  rw [shapeOf, isBlank_of_isDigit h, if_neg (by decide), if_pos h]

theorem shapeOf_letter (h : isLetter c = true) : shapeOf c r = (.word, run isWordPart r) := by
  rw [shapeOf, isBlank_of_isLetter h, isDigit_of_isLetter h, if_neg (by decide),
    if_neg (by decide), if_pos h]

theorem shapeOf_quote : shapeOf '"' r = stringTail r := rfl

theorem shapeOf_slash : shapeOf '/' r = slashTail r := rfl

theorem shapeOf_other (h : Other c) (hslash : c ≠ '/') : shapeOf c r = operatorTail c r := by
  rw [shapeOf, h.blank, h.digit, h.letter, if_neg (by decide), if_neg (by decide),
    if_neg (by decide), if_neg h.quote, if_neg hslash]

theorem shapeOf_unexpected (h : Unexpected c) : shapeOf c r = (.stray c, 0) := by
  obtain ⟨hother, hone⟩ := unexpected_iff.mp h
  have htwo : operator₂ c = none := by
    refine Option.eq_none_iff_forall_ne_some.mpr fun k hk => ?_
    obtain ⟨⟨k', hk'⟩, -⟩ := operator₁_of_operator₂ hk
    simp [hone] at hk'
  have hslash : c ≠ '/' := by
    rintro rfl
    cases hone
  rw [shapeOf_other hother hslash, operatorTail_one (.inl htwo), hone]
  rfl

/-! ### What is found is a fragment -/

/-- What starts with `c` and takes so much of `r` is a fragment. -/
def Found (c : Char) (r : List Char) (x : Shape × Nat) : Prop :=
  Lexeme x.1 (c :: r.take x.2) (r.drop x.2)

theorem found_number (h : isDigit c = true) : Found c r (.number, numberTail r) := by
  have htake : ∀ d ∈ c :: r.take (run isDigit r), isDigit d = true := by
    rw [take_run]
    exact List.forall_mem_cons.mpr ⟨h, fun _ => List.mem_takeWhile_imp⟩
  rcases numberTail_cases r with hn | ⟨body, d, rest, rfl, hbody, hd⟩
  · rw [Found, hn]
    exact .whole (List.cons_ne_nil _ _) htake
  · have hfraction : (body ++ '.' :: d :: rest).take (body.length + 2 + run isDigit rest) =
        body ++ '.' :: d :: rest.takeWhile isDigit := by
      rw [Nat.add_assoc, List.take_length_add_append, Nat.add_comm 2, List.take_succ_cons,
        List.take_succ_cons, take_run]
    rw [Found, numberTail_fraction hbody hd, hfraction]
    have hwhole : ∀ d ∈ c :: body, isDigit d = true := List.forall_mem_cons.mpr ⟨h, hbody⟩
    have hplaces : ∀ p ∈ d :: rest.takeWhile isDigit, isDigit p = true :=
      List.forall_mem_cons.mpr ⟨hd, fun _ => List.mem_takeWhile_imp⟩
    exact .fraction (List.cons_ne_nil _ _) (List.cons_ne_nil _ _)
      (List.forall_mem_append.mpr ⟨hwhole, hplaces⟩)

theorem found_word (h : isLetter c = true) : Found c r (.word, run isWordPart r) := by
  rw [Found, take_run]
  exact .word h fun _ => List.mem_takeWhile_imp

theorem found_string : Found '"' r (stringTail r) := by
  by_cases hclosed : '"' ∈ r
  · obtain ⟨body, rest, rfl, hbody⟩ := List.eq_append_cons_of_mem hclosed
    have htake : (body ++ '"' :: rest).take (body.length + 1) = body ++ ['"'] := by
      rw [List.take_length_add_append]
      rfl
    rw [stringTail_closed hbody, Found, htake]
    exact .string hbody
  · rw [stringTail_open hclosed, Found, List.take_length, List.drop_length]
    exact .openString hclosed

theorem found_comment : Found '/' ('*' :: r) (slashTail ('*' :: r)) := by
  rcases exists_close r with ⟨body, rest, rfl, hbody⟩ | hopen
  · have htake : (body ++ '*' :: '/' :: rest).take (body.length + 2) = body ++ ['*', '/'] := by
      rw [List.take_length_add_append]
      rfl
    rw [slashTail_closed hbody, Found, List.take_succ_cons, htake]
    exact .blockComment hbody
  · rw [slashTail_open hopen, Found, List.take_succ_cons, List.drop_succ_cons, List.take_length,
      List.drop_length]
    exact .openComment hopen

theorem found_slash : Found '/' r (slashTail r) := by
  by_cases hslash : r.head? = some '/'
  · obtain ⟨r, rfl⟩ := List.head?_eq_some_iff.mp hslash
    rw [slashTail, Found, List.take_succ_cons, take_run]
    exact .lineComment fun hnewline => absurd (List.mem_takeWhile_imp hnewline) (by decide)
  · by_cases hstar : r.head? = some '*'
    · obtain ⟨r, rfl⟩ := List.head?_eq_some_iff.mp hstar
      exact found_comment
    · rw [slashTail_mark hslash hstar]
      exact .operator (k := .slash) rfl

theorem found_operator (h : Other c) : Found c r (operatorTail c r) := by
  have hone : Found c r ((operator₁ c).elim (.stray c) .operator, 0) := by
    cases hop : operator₁ c with
    | none => exact .stray (unexpected_iff.mpr ⟨h, hop⟩)
    | some k =>
      obtain ⟨hmark, hspelling⟩ := operator₁_spelling hop
      have hlexeme : Lexeme (.operator k) k.spelling.toList r := .operator hmark
      rwa [← hspelling, String.toList_ofList] at hlexeme
  cases hop : operator₂ c with
  | none => rwa [operatorTail_one (.inl hop)]
  | some k =>
    by_cases heq : r.head? = some '='
    · obtain ⟨r, rfl⟩ := List.head?_eq_some_iff.mp heq
      obtain ⟨hmark, hspelling⟩ := operator₂_spelling hop
      have hlexeme : Lexeme (.operator k) k.spelling.toList r := .operator hmark
      rw [← hspelling, String.toList_ofList] at hlexeme
      rwa [operatorTail_two hop]
    · rwa [operatorTail_one (.inr heq)]

/-- What scanning cuts off is a fragment. -/
theorem shapeOf_found (c : Char) (r : List Char) : Found c r (shapeOf c r) := by
  by_cases hblank : isBlank c = true
  · rw [shapeOf_blank hblank]
    exact .blank (isBlank_iff.mp hblank)
  by_cases hdigit : isDigit c = true
  · rw [shapeOf_digit hdigit]
    exact found_number hdigit
  by_cases hletter : isLetter c = true
  · rw [shapeOf_letter hletter]
    exact found_word hletter
  by_cases hquote : c = '"'
  · subst hquote
    exact found_string
  by_cases hslash : c = '/'
  · subst hslash
    exact found_slash
  · have hother : Other c := ⟨Bool.eq_false_iff.mpr hblank, Bool.eq_false_iff.mpr hdigit,
      Bool.eq_false_iff.mpr hletter, hquote⟩
    rw [shapeOf_other hother hslash]
    exact found_operator hother

/-! ### What is found is the longest -/

/-- What is found is longer than another fragment, or it is the same. -/
structure Outlasts (x : Shape × Nat) (s : Shape) (text : List Char) : Prop where
  length : text.length ≤ x.2 + 1
  shape : text.length = x.2 + 1 → s = x.1

theorem Outlasts.same {s : Shape} {text : List Char} {n : Nat} (h : text.length ≤ n + 1) :
    Outlasts (s, n) s text := ⟨h, fun _ => rfl⟩

theorem slashTail_pos (h : r.head? = some '/' ∨ r.head? = some '*') : 0 < (slashTail r).2 := by
  rcases h with h | h <;> obtain ⟨r, rfl⟩ := List.head?_eq_some_iff.mp h
  · exact Nat.succ_pos _
  · rcases exists_close r with ⟨body, rest, rfl, hbody⟩ | hopen
    · rw [slashTail_closed hbody]
      exact Nat.succ_pos _
    · rw [slashTail_open hopen]
      exact Nat.succ_pos _

theorem outlasts_one {k : Kind} (h : operator₁ c = some k) :
    Outlasts (shapeOf c r) (.operator k) [c] := by
  by_cases hslash : c = '/'
  · subst hslash
    obtain rfl : .slash = k := by simpa [operator₁] using h
    by_cases hcomment : r.head? = some '/' ∨ r.head? = some '*'
    · have hpos := slashTail_pos hcomment
      exact ⟨Nat.le_add_left 1 _, fun hlen => absurd (Nat.succ.inj hlen) (Nat.ne_of_lt hpos)⟩
    · rw [not_or] at hcomment
      rw [shapeOf_slash, slashTail_mark hcomment.1 hcomment.2]
      exact .same (Nat.le_refl 1)
  · rw [shapeOf_other (other_of_operator₁ h) hslash]
    cases hop : operator₂ c with
    | none =>
      rw [operatorTail_one (.inl hop), h]
      exact .same (Nat.le_refl 1)
    | some k' =>
      by_cases heq : r.head? = some '='
      · obtain ⟨r, rfl⟩ := List.head?_eq_some_iff.mp heq
        rw [operatorTail_two hop]
        exact ⟨Nat.le_succ 1, nofun⟩
      · rw [operatorTail_one (.inr heq), h]
        exact .same (Nat.le_refl 1)

theorem outlasts_two {k : Kind} (h : operator₂ c = some k) :
    Outlasts (shapeOf c ('=' :: r)) (.operator k) [c, '='] := by
  obtain ⟨⟨k', hk'⟩, hslash⟩ := operator₁_of_operator₂ h
  rw [shapeOf_other (other_of_operator₁ hk') hslash, operatorTail_two h]
  exact .same (Nat.le_refl 2)

/-- Nothing that could be cut off instead is as long, except for the same again. -/
theorem shapeOf_outlasts {s : Shape} {text rest : List Char} (h : Lexeme s text rest)
    (hcs : text ++ rest = c :: r) : Outlasts (shapeOf c r) s text := by
  cases h with
  | blank hc =>
    obtain ⟨rfl, rfl⟩ := List.cons.inj hcs
    rw [shapeOf_blank (isBlank_iff.mpr hc)]
    exact .same (Nat.le_refl 1)
  | @lineComment body _ hbody =>
    obtain ⟨rfl, rfl⟩ := List.cons.inj hcs
    have hle : body.length ≤ run (· != '\n') (body ++ rest) :=
      le_run fun d hd => bne_iff_ne.mpr (ne_of_mem_of_not_mem hd hbody)
    exact .same (Nat.succ_le_succ (Nat.succ_le_succ hle))
  | @blockComment body _ hbody =>
    obtain ⟨rfl, rfl⟩ : '/' = c ∧ '*' :: (body ++ '*' :: '/' :: rest) = r := by simpa using hcs
    rw [shapeOf_slash, slashTail_closed hbody]
    exact .same (by simp)
  | @string body _ hbody =>
    obtain ⟨rfl, rfl⟩ : '"' = c ∧ body ++ '"' :: rest = r := by simpa using hcs
    rw [shapeOf_quote, stringTail_closed hbody]
    exact .same (by simp)
  | whole hne hds =>
    obtain ⟨d, ds, rfl⟩ := List.exists_cons_of_ne_nil hne
    obtain ⟨rfl, rfl⟩ := List.cons.inj hcs
    obtain ⟨hd, hds⟩ := List.forall_mem_cons.mp hds
    have hle : ds.length ≤ numberTail (ds ++ rest) :=
      Nat.le_trans (le_run hds) (run_le_numberTail _)
    rw [shapeOf_digit hd]
    exact .same (Nat.succ_le_succ hle)
  | fraction hne hne' hds =>
    obtain ⟨d, ds, rfl⟩ := List.exists_cons_of_ne_nil hne
    obtain ⟨p, ps, rfl⟩ := List.exists_cons_of_ne_nil hne'
    obtain ⟨hds, hps⟩ := List.forall_mem_append.mp hds
    obtain ⟨hd, hds⟩ := List.forall_mem_cons.mp hds
    obtain ⟨hp, hps⟩ := List.forall_mem_cons.mp hps
    obtain ⟨rfl, rfl⟩ : d = c ∧ ds ++ '.' :: p :: (ps ++ rest) = r := by simpa using hcs
    have hle : ps.length ≤ run isDigit (ps ++ rest) := le_run hps
    rw [shapeOf_digit hd, numberTail_fraction hds hp]
    exact .same (by simp; omega)
  | word hc hcs' =>
    obtain ⟨rfl, rfl⟩ := List.cons.inj hcs
    rw [shapeOf_letter hc]
    exact .same (Nat.succ_le_succ (le_run hcs'))
  | operator hk =>
    rcases spelling_of_isMark hk with ⟨d, hd, hop⟩ | ⟨d, hd, hop⟩ <;> rw [hd] at hcs ⊢ <;>
      obtain ⟨rfl, rfl⟩ := List.cons.inj hcs
    · exact outlasts_one hop
    · exact outlasts_two hop
  | stray hc =>
    obtain ⟨rfl, rfl⟩ := List.cons.inj hcs
    rw [shapeOf_unexpected hc]
    exact .same (Nat.le_refl 1)
  | @openComment body hbody =>
    obtain ⟨rfl, rfl⟩ : '/' = c ∧ '*' :: body = r := by simpa using hcs
    rw [shapeOf_slash, slashTail_open hbody]
    exact .same (by simp)
  | @openString body hbody =>
    obtain ⟨rfl, rfl⟩ : '"' = c ∧ body = r := by simpa using hcs
    rw [shapeOf_quote, stringTail_open hbody]
    exact .same (by simp)

end

end Fragment
end Lox
