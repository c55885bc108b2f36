import Lox.Proofs.Source.Tokens

/-!
Where tokens and errors stand. Scanning counts bytes, lines and tokens as it goes over a source, and
its counts are right behind every fragment, the malformed ones included. So every token is found
again in the source at the place that it tells, and every error tells the line where something went
wrong.
-/

namespace Lox

/-! ### Slices -/

/-- The bytes from `i` to `j` of a source spell `s`, and both places are between characters. -/
structure Slice (src : String) (i j : Nat) (s : String) : Prop where
  start : String.Pos.Raw.IsValid src ⟨i⟩
  stop : String.Pos.Raw.IsValid src ⟨j⟩
  bytes : src.toByteArray.extract i j = s.toByteArray

theorem isValid_append (a b : String) : String.Pos.Raw.IsValid (a ++ b) ⟨a.utf8ByteSize⟩ :=
  String.Pos.Raw.isValid_iff_exists_append.mpr ⟨a, b, rfl, rfl⟩

theorem slice_append (a s b : String) :
    Slice (a ++ s ++ b) a.utf8ByteSize (a.utf8ByteSize + s.utf8ByteSize) s where
  start := String.append_assoc ▸ isValid_append a (s ++ b)
  stop := String.utf8ByteSize_append ▸ isValid_append (a ++ s) b
  bytes := by
    have hskip := ByteArray.extract_append_size_add' (a := a.toByteArray)
      (b := s.toByteArray ++ b.toByteArray) (i := 0) (j := s.utf8ByteSize) rfl
    rw [String.append_assoc, String.toByteArray_append, String.toByteArray_append,
      ← String.size_toByteArray, ← Nat.add_zero a.toByteArray.size, Nat.add_assoc, Nat.zero_add,
      hskip, ByteArray.extract_append_eq_left String.size_toByteArray.symm]

theorem utf8ByteSize_ofList (cs : List Char) : (String.ofList cs).utf8ByteSize = bytesOf cs := by
  induction cs with
  | nil => rfl
  | cons c cs ih =>
    have hone : (String.ofList [c]).utf8ByteSize = bytesOf [c] := by
      rw [← String.singleton_eq_ofList, String.utf8ByteSize_singleton]
      exact (Nat.zero_add _).symm
    rw [← List.singleton_append, String.ofList_append, String.utf8ByteSize_append, ih,
      bytesOf_append, hone]

/-! ### Tokens -/

/-- The place behind the last byte of a token. -/
def Token.stop (t : Token) : Nat := t.col + t.lexeme.utf8ByteSize

/-- A token of a source stands behind `before` and in front of `after`, and it says so. -/
structure Token.Between (src before after : String) (t : Token) : Prop where
  split : src = before ++ t.lexeme ++ after
  col : t.col = before.utf8ByteSize
  line : t.line = 1 + (before ++ t.lexeme).toList.count '\n'

namespace Token.Between

section
variable {src before after : String} {t : Token}

theorem slice (h : t.Between src before after) : Slice src t.col t.stop t.lexeme := by
  rw [Token.stop, h.split, h.col]
  exact slice_append before t.lexeme after

/-- What a string denotes stands between its quotes. -/
theorem slice_quote (h : t.Between src before after) {s : String} (hs : t.lexeme = quote s) :
    Slice src (t.col + 1) (t.stop - 1) s := by
  have hquote : t.lexeme = "\"" ++ s ++ "\"" := by
    rw [hs, quote, ← String.toList_inj]
    simp
  have hsplit : src = before ++ "\"" ++ s ++ ("\"" ++ after) := by
    rw [h.split, hquote]
    simp only [String.append_assoc]
  have hstart : t.col + 1 = (before ++ "\"").utf8ByteSize := by
    rw [h.col, String.utf8ByteSize_append]
    rfl
  have hstop : t.stop - 1 = (before ++ "\"").utf8ByteSize + s.utf8ByteSize := by
    have hone : "\"".utf8ByteSize = 1 := rfl
    rw [Token.stop, h.col, hquote]
    simp only [String.utf8ByteSize_append, hone]
    omega
  rw [hstart, hstop, hsplit]
  exact slice_append _ _ _

theorem stop_le (h : t.Between src before after) : t.stop ≤ src.utf8ByteSize :=
  h.slice.stop.le_utf8ByteSize

/-- A token stays where it is when there is more behind it. -/
theorem extend (h : t.Between src before after) (more : String) :
    t.Between (src ++ more) before (after ++ more) where
  split := by rw [h.split, String.append_assoc]
  col := h.col
  line := h.line

end

end Token.Between

theorem Token.col_lt_stop {t : Token} (h : t.lexeme ≠ "") : t.col < t.stop := by
  have hsize : t.lexeme.utf8ByteSize ≠ 0 := mt String.utf8ByteSize_eq_zero_iff.mp h
  exact Nat.lt_add_of_pos_right (Nat.pos_of_ne_zero hsize)

/-- Some tokens are numbered from 0, and stand in `cs` one behind the other. -/
structure Ordered (cs : List Char) (ts : List Token) : Prop where
  idx : ts.map Token.idx = List.range ts.length
  between : ∀ t ∈ ts, ∃ before after, t.Between (String.ofList cs) before after
  apart : ts.Pairwise fun t u => t.col < u.col ∧ t.stop ≤ u.col

namespace Ordered

section
variable {cs : List Char} {ts : List Token}

theorem extend (h : Ordered cs ts) (text : List Char) : Ordered (cs ++ text) ts where
  idx := h.idx
  between t ht := by
    obtain ⟨before, after, hbetween⟩ := h.between t ht
    rw [String.ofList_append]
    exact ⟨before, _, hbetween.extend _⟩
  apart := h.apart

/-- One more token, behind all that there are. -/
theorem push (h : Ordered cs ts) (hts : ∀ t ∈ ts, t.lexeme ≠ "") {t : Token} {text : List Char}
    (hidx : t.idx = ts.length) (hcol : t.col = bytesOf cs) (hlexeme : t.lexeme = String.ofList text)
    (hline : t.line = 1 + (cs ++ text).count '\n') : Ordered (cs ++ text) (ts ++ [t]) where
  idx := by
    rw [List.map_append, h.idx, List.length_append, List.length_singleton, List.range_succ,
      List.map_singleton, hidx]
  between := by
    refine List.forall_mem_append.mpr ⟨(h.extend text).between, fun u hu => ?_⟩
    obtain rfl := List.mem_singleton.mp hu
    refine ⟨String.ofList cs, "", ?_, ?_, ?_⟩
    · rw [hlexeme, String.append_empty, String.ofList_append]
    · rw [hcol, utf8ByteSize_ofList]
    · rw [hline, hlexeme, ← String.ofList_append, String.toList_ofList]
  apart := by
    refine List.pairwise_append.mpr ⟨h.apart, List.pairwise_singleton _ _, fun u hu v hv => ?_⟩
    obtain rfl := List.mem_singleton.mp hv
    obtain ⟨before, after, hbetween⟩ := h.between u hu
    have hle : u.stop ≤ v.col := by
      rw [hcol, ← utf8ByteSize_ofList]
      exact hbetween.stop_le
    exact ⟨Nat.lt_of_lt_of_le (Token.col_lt_stop (hts u hu)) hle, hle⟩

end

end Ordered

/-- A token has the number and the start of its place, and the line where its fragment ends. -/
theorem Fragment.token_place {f : Fragment} {p : Place} {t : Token}
    (h : f.item? p = some (.token t)) :
    t.idx = p.idx ∧ t.col = p.col ∧ t.lexeme = String.ofList f.text ∧ t.line = f.endLine p := by
  obtain ⟨shape, text⟩ := f
  cases shape <;> cases h <;> exact ⟨rfl, rfl, rfl, rfl⟩

namespace Scan

/-- Scanning has gone over `cs`, its counts are right, and the tokens that it found are in order. -/
structure Exact (s : Scan) (cs : List Char) : Prop where
  counts : s.Counts cs
  ordered : Ordered cs s.tokens
  nonempty : ∀ t ∈ s.tokens, t.lexeme ≠ ""

/-- Every fragment leaves the tokens in order, a malformed one too. -/
theorem Exact.step {s : Scan} {cs : List Char} (h : s.Exact cs) {f : Fragment} (hf : f.text ≠ []) :
    (s.step f).Exact (cs ++ f.text) := by
  have hcounts := h.counts.step f
  cases hitem : (f.item? s.place).bind Item.token? with
  | none =>
    have htokens : (s.step f).tokens = s.tokens := by
      rw [tokens_step, hitem]
      exact List.append_nil _
    exact ⟨hcounts, htokens ▸ h.ordered.extend f.text, htokens ▸ h.nonempty⟩
  | some t =>
    have htokens : (s.step f).tokens = s.tokens ++ [t] := by
      rw [tokens_step, hitem]
      rfl
    obtain ⟨i, hi, ht⟩ := Option.bind_eq_some_iff.mp hitem
    obtain rfl := Item.token?_eq_some.mp ht
    obtain ⟨hidx, hcol, hlexeme, hline⟩ := Fragment.token_place hi
    rw [h.counts.endLine f] at hline
    rw [h.counts] at hidx hcol
    have hne : t.lexeme ≠ "" := fun hempty => hf (String.ofList_eq_empty_iff.mp (hlexeme ▸ hempty))
    refine ⟨hcounts, ?_, ?_⟩
    · rw [htokens]
      exact h.ordered.push h.nonempty hidx hcol hlexeme hline
    · rw [htokens]
      exact List.forall_mem_append.mpr ⟨h.nonempty, List.forall_mem_singleton.mpr hne⟩

theorem Exact.foldl {s : Scan} {cs : List Char} (h : s.Exact cs) {fs : List Fragment}
    (hfs : ∀ f ∈ fs, f.text ≠ []) : (fs.foldl Scan.step s).Exact (cs ++ fs.flatMap (·.text)) := by
  induction fs generalizing s cs with
  | nil => simpa using h
  | cons f fs ih =>
    obtain ⟨hf, hfs⟩ := List.forall_mem_cons.mp hfs
    rw [List.flatMap_cons, ← List.append_assoc]
    exact ih (h.step hf) hfs

theorem exact_start : (⟨.start, #[]⟩ : Scan).Exact [] := ⟨counts_start, ⟨rfl, nofun, .nil⟩, nofun⟩

theorem exact_ofSource (src : String) : (ofSource src).Exact src.toList := by
  have hne : ∀ f ∈ Fragment.all src.toList, f.text ≠ [] := fun f hf => by
    obtain ⟨rest, hlexeme⟩ := (splits_iff.mpr rfl).exists_lexeme f hf
    exact hlexeme.ne_nil
  have h := exact_start.foldl hne
  rwa [Fragment.flatMap_all, List.nil_append] at h

/-- The tokens of a source are in order, and so is its end. -/
theorem ordered_scan (src : String) : Ordered src.toList (scan src).1 := by
  have h := exact_ofSource src
  have hcounts := h.counts
  rw [Counts] at hcounts
  have heof : Ordered (src.toList ++ []) ((ofSource src).tokens ++ [(ofSource src).place.eof]) := by
    rw [Place.eof, hcounts]
    have hline : 1 + src.toList.count '\n' = 1 + (src.toList ++ []).count '\n' := by
      rw [List.append_nil]
    exact h.ordered.push h.nonempty rfl rfl rfl hline
  rwa [List.append_nil, ← scan_tokens] at heof

theorem eof_col (src : String) : (ofSource src).place.eof.col = src.utf8ByteSize := by
  have hcol : (ofSource src).place.col = bytesOf src.toList :=
    congrArg Place.col (counts_ofSource src)
  rw [Place.eof, hcol, ← utf8ByteSize_ofList, String.ofList_toList]

/-- The place behind some of the fragments is where the last of them ends. -/
theorem slice_foldl {src : String} {fs : List Fragment} {f : Fragment}
    (h : fs ++ [f] <+: Fragment.all src.toList) :
    Slice src (fs.foldl step ⟨.start, #[]⟩).place.col
      ((fs ++ [f]).foldl step ⟨.start, #[]⟩).place.col (String.ofList f.text) := by
  have hcol : ∀ gs : List Fragment, (gs.foldl step ⟨.start, #[]⟩).place.col =
      bytesOf (gs.flatMap (·.text)) := fun gs => congrArg Place.col (counts_start.foldl gs)
  obtain ⟨gs, hgs⟩ := h
  have hsplit : src = String.ofList (fs.flatMap (·.text)) ++ String.ofList f.text ++
      String.ofList (gs.flatMap (·.text)) := by
    rw [← String.toList_inj, ← Fragment.flatMap_all src.toList, ← hgs]
    simp
  have hslice := slice_append (String.ofList (fs.flatMap (·.text))) (String.ofList f.text)
    (String.ofList (gs.flatMap (·.text)))
  rw [← hsplit, utf8ByteSize_ofList, utf8ByteSize_ofList, ← bytesOf_append] at hslice
  rw [hcol, hcol, List.flatMap_append, List.flatMap_singleton]
  exact hslice

end Scan

/-! ### Errors -/

/-- `Reports cs q e`: of a malformed fragment of `cs` and the characters before it, the error `e`
tells what is wrong and on which line. A stray character is on the line that it stands on, and what
is left open is missed on the last line. -/
inductive Reports (cs : List Char) : List Char × Fragment → ScanError → Prop where
  | stray {before c after} : cs = before ++ c :: after →
      Reports cs (before, ⟨.stray c, [c]⟩) ⟨.stray c, 1 + before.count '\n'⟩
  | openComment {before text} : cs = before ++ text →
      Reports cs (before, ⟨.openComment, text⟩) ⟨.openComment, 1 + cs.count '\n'⟩
  | openString {before text} : cs = before ++ text →
      Reports cs (before, ⟨.openString, text⟩) ⟨.openString, 1 + cs.count '\n'⟩

/-- In a split, every fragment stands behind what comes before it. -/
theorem Splits.of_mem_placed {cs : List Char} {fs : List Fragment} (h : Splits cs fs)
    {before : List Char} : ∀ q ∈ placed before fs, ∃ rest,
      before ++ cs = q.1 ++ (q.2.text ++ rest) ∧ Lexeme q.2.shape q.2.text rest := by
  induction h generalizing before with
  | nil => exact nofun
  | cons hfirst _ ih =>
    refine List.forall_mem_cons.mpr ⟨⟨_, ?_, hfirst.lexeme⟩, fun q hq => ?_⟩
    · rw [← hfirst.split]
    · obtain ⟨rest, hrest, hlexeme⟩ := ih q hq
      rw [List.append_assoc, ← hfirst.split] at hrest
      exact ⟨rest, hrest, hlexeme⟩

theorem reports_error {cs : List Char} {q : List Char × Fragment} {e : ScanError} {rest : List Char}
    (hcs : cs = q.1 ++ (q.2.text ++ rest)) (hlexeme : Lexeme q.2.shape q.2.text rest)
    (he : q.2.error? q.1 = some e) : Reports cs q e := by
  obtain ⟨before, shape, text⟩ := q
  obtain ⟨flaw, hflaw, rfl⟩ := Option.map_eq_some_iff.mp he
  cases hlexeme with
  | @stray c _ hc =>
    cases hflaw
    have hnewline : c ≠ '\n' := by
      rintro rfl
      cases hc.blank
    have hcount : (before ++ [c]).count '\n' = before.count '\n' := by
      rw [List.count_append, List.count_singleton, if_neg (by simpa using hnewline), Nat.add_zero]
    rw [hcount]
    exact .stray hcs
  | openComment _ =>
    cases hflaw
    rw [List.append_nil] at hcs
    exact hcs ▸ .openComment hcs
  | openString _ =>
    cases hflaw
    rw [List.append_nil] at hcs
    exact hcs ▸ .openString hcs
  | _ => cases hflaw

theorem forall₂_filterMap {α β : Type} {R : α → β → Prop} {g : α → Option β} {as : List α}
    (h : ∀ a ∈ as, ∀ b, g a = some b → R a b) :
    List.Forall₂ R (as.filter fun a => (g a).isSome) (as.filterMap g) := by
  induction as with
  | nil => exact .nil
  | cons a as ih =>
    obtain ⟨ha, has⟩ := List.forall_mem_cons.mp h
    cases hg : g a with
    | none => simpa [hg] using ih has
    | some b => simpa [hg] using ⟨ha b hg, ih has⟩

/-- Every malformed fragment has an error of its own, in the order of the source. -/
theorem scan_reported {src : String} {fs : List Fragment} (h : Splits src.toList fs) :
    List.Forall₂ (Reports src.toList) ((placed [] fs).filter (·.2.shape.flaw?.isSome))
      (scan src).2 := by
  have hsome : ∀ q : List Char × Fragment,
      (q.2.error? q.1).isSome = q.2.shape.flaw?.isSome := fun q => by simp [Fragment.error?]
  rw [errors_of_splits h]
  simp only [← hsome]
  refine forall₂_filterMap fun q hq e he => ?_
  obtain ⟨rest, hcs, hlexeme⟩ := h.of_mem_placed q hq
  exact reports_error hcs hlexeme he

/-! ### Sources -/

/-- Positions are exact. The places that scanning comes to are between characters, and every
fragment is what the source has from one to the next. Tokens are numbered from 0 and stand one
behind the other. Each of them is what the source has at its place, as is the text of a string
between its quotes, and its line is the one on which it ends. The end of the source comes last and
only there. Every malformed fragment has one error, with the line of a stray character or else the
last line. -/
theorem positions_exact (src : String) :
    (∀ fs f, fs ++ [f] <+: Fragment.all src.toList →
      Slice src (fs.foldl Scan.step ⟨.start, #[]⟩).place.col
        ((fs ++ [f]).foldl Scan.step ⟨.start, #[]⟩).place.col (String.ofList f.text)) ∧
    (∀ i (h : i < (scan src).1.length), (scan src).1[i].idx = i) ∧
    (∀ t ∈ (scan src).1, (∃ before after, t.Between src before after) ∧
      Slice src t.col t.stop t.lexeme ∧
      (t.kind = .string → ∃ s, t.value = .str s ∧ Slice src (t.col + 1) (t.stop - 1) s)) ∧
    (scan src).1.Pairwise (fun t u => t.col < u.col ∧ t.stop ≤ u.col) ∧
    (∃ ts eof, (scan src).1 = ts ++ [eof] ∧ eof.kind = .eof ∧ eof.lexeme = "" ∧
      eof.col = src.utf8ByteSize ∧ ∀ t ∈ ts, t.kind ≠ .eof) ∧
    ∃ fs, Splits src.toList fs ∧ List.Forall₂ (Reports src.toList)
      ((placed [] fs).filter (·.2.shape.flaw?.isSome)) (scan src).2 := by
  have hordered := Scan.ordered_scan src
  refine ⟨fun fs f => Scan.slice_foldl, fun i hi => ?_, fun t ht => ?_, hordered.apart, ?_, ?_⟩
  · have hidx := List.getElem_of_eq hordered.idx (i := i) (by simpa using hi)
    simpa using hidx
  · obtain ⟨before, after, h⟩ := hordered.between t ht
    rw [String.ofList_toList] at h
    refine ⟨⟨before, after, h⟩, h.slice, fun hkind => ?_⟩
    have hdenotes := (scan_regular src t ht).denotes
    rw [hkind] at hdenotes
    obtain ⟨s, hvalue, hlexeme⟩ := hdenotes
    exact ⟨s, hvalue, h.slice_quote hlexeme⟩
  · refine ⟨_, _, scan_tokens src, rfl, rfl, Scan.eof_col src, fun t ht heof => ?_⟩
    exact absurd (Scan.not_isEof ht) (by simp [Token.isEof, heof])
  · exact ⟨_, splits_iff.mpr rfl, scan_reported (splits_iff.mpr rfl)⟩

-- a newline in a string counts for the line where the string ends, and an accent takes two bytes
example : scan "\"é\n\" @;" = ([⟨.string, "\"é\n\"", 2, 0, 0, .str "é\n"⟩,
    ⟨.semicolon, ";", 2, 7, 1, .nil⟩, ⟨.eof, "", 2, 8, 2, .nil⟩], [⟨.stray '@', 2⟩]) := by cbv

end Lox
