import Lox.Proofs.Source.Spelling

/-!
Sources put together line by line. When nothing is left open at the end of a source, the line break
behind it ends its last fragment, and what comes after is cut and read as if it stood alone, at a
later place.
-/

namespace Lox

/-- Whether something was opened and never closed. -/
def Shape.isOpen : Shape → Bool
  | .openComment | .openString => true
  | _ => false

namespace Fragment
open Character

/-! ### One fragment -/

theorem run_append {p : Char → Bool} (hp : p '\n' = false) (r bs : List Char) :
    run p (r ++ '\n' :: bs) = run p r := by
  have hbs : ('\n' :: bs).takeWhile p = [] := List.takeWhile_cons_of_neg (by simp [hp])
  rw [run, run, List.takeWhile_append, hbs, List.append_nil]
  split
  · next h => exact h.symm
  · rfl

theorem run_le (p : Char → Bool) (r : List Char) : run p r ≤ r.length :=
  (List.takeWhile_sublist p).length_le

theorem numberTail_append (r bs : List Char) : numberTail (r ++ '\n' :: bs) = numberTail r := by
  have hn := run_append (p := isDigit) rfl r bs
  simp only [numberTail, hn, List.drop_append_of_le_length (run_le isDigit r)]
  match r.drop (run isDigit r) with
  | [] => rfl
  | [c] =>
    by_cases hc : c = '.'
    · subst hc
      rfl
    · simp [hc]
  | c :: d :: r' =>
    by_cases hc : c = '.'
    · subst hc
      simp [run_append (p := isDigit) rfl]
    · simp [hc]

theorem numberTail_le (r : List Char) : numberTail r ≤ r.length := by
  have hn := run_le isDigit r
  have hdrop : (r.drop (run isDigit r)).length = r.length - run isDigit r := List.length_drop
  rw [numberTail]
  split
  · next d r' h =>
    have hr' := run_le isDigit r'
    rw [h] at hdrop
    simp only [List.length_cons] at hdrop
    split <;> omega
  · exact hn

/-- What closes is closed in front of the line break. -/
theorem pastClose_append (bs : List Char) : ∀ (r : List Char) (n m : Nat),
    pastClose n r = some m → pastClose n (r ++ bs) = some m ∧ m ≤ n + r.length
  | [], _, _, h => by simp [pastClose] at h
  | [c], n, m, h => by simp [pastClose] at h
  | c :: d :: r, n, m, h => by
    by_cases hc : c = '*' ∧ d = '/'
    · obtain ⟨rfl, rfl⟩ := hc
      simp only [pastClose, Option.some.injEq] at h
      subst h
      exact ⟨rfl, by simp⟩
    · have hstep : ∀ r, pastClose n (c :: d :: r) = pastClose (n + 1) (d :: r) := by
        intro r
        rw [pastClose]
        exact fun _ hc' hd => hc ⟨hc', (List.cons.inj hd).1⟩
      rw [hstep] at h
      obtain ⟨h, hm⟩ := pastClose_append bs (d :: r) (n + 1) m h
      rw [List.cons_append, List.cons_append, hstep]
      exact ⟨h, by simp only [List.length_cons] at hm ⊢; omega⟩

theorem slashTail_append (r bs : List Char) (h : (slashTail r).1.isOpen = false) :
    slashTail (r ++ '\n' :: bs) = slashTail r ∧ (slashTail r).2 ≤ r.length := by
  match r with
  | [] => exact ⟨rfl, Nat.le_refl _⟩
  | c :: r =>
    by_cases hslash : c = '/'
    · subst hslash
      rw [List.cons_append, slashTail, slashTail, run_append (by simp)]
      exact ⟨rfl, Nat.succ_le_succ (run_le _ r)⟩
    by_cases hstar : c = '*'
    · subst hstar
      rw [List.cons_append, slashTail, slashTail]
      rw [slashTail] at h
      cases hm : pastClose 1 r with
      | none => simp [hm, Shape.isOpen] at h
      | some m =>
        obtain ⟨hm', hle⟩ := pastClose_append ('\n' :: bs) r 1 m hm
        rw [hm']
        exact ⟨rfl, by simp only [List.length_cons]; omega⟩
    · simp [slashTail, hslash, hstar]

theorem stringTail_append (r bs : List Char) (h : (stringTail r).1.isOpen = false) :
    stringTail (r ++ '\n' :: bs) = stringTail r ∧ (stringTail r).2 ≤ r.length := by
  by_cases hlt : run (· != '"') r < r.length
  · have hrun : run (· != '"') (r ++ '\n' :: bs) = run (· != '"') r := by
      rw [run] at hlt ⊢
      rw [List.takeWhile_append, if_neg (Nat.ne_of_lt hlt), run]
    rw [stringTail, stringTail, hrun, if_pos hlt, if_pos]
    · exact ⟨rfl, hlt⟩
    · rw [List.length_append]
      omega
  · rw [stringTail, if_neg hlt] at h
    cases h

theorem operatorTail_append (c : Char) (r bs : List Char) :
    operatorTail c (r ++ '\n' :: bs) = operatorTail c r ∧ (operatorTail c r).2 ≤ r.length := by
  have hone : ∀ {r}, (∀ k r', operator₂ c = some k → r = '=' :: r' → False) →
      operatorTail c r = ((operator₁ c).elim (.stray c) .operator, 0) := by
    intro r h
    rw [operatorTail]
    · cases operator₁ c <;> rfl
    · exact h
  match r with
  | [] =>
    rw [hone fun _ _ _ h => by simp at h, hone fun _ _ _ h => by simp at h]
    exact ⟨rfl, Nat.le_refl _⟩
  | d :: r =>
    by_cases hd : d = '=' ∧ ∃ k, operator₂ c = some k
    · obtain ⟨rfl, k, hk⟩ := hd
      simp [operatorTail, hk]
    · have hd : ∀ k, operator₂ c = some k → d ≠ '=' := fun k hk h => hd ⟨h, k, hk⟩
      rw [List.cons_append, hone fun k _ hk h => hd k hk (List.cons.inj h).1,
        hone fun k _ hk h => hd k hk (List.cons.inj h).1]
      exact ⟨rfl, Nat.zero_le _⟩

/-- A fragment that is closed is not changed by what comes behind a line break after it. -/
theorem shapeOf_append (c : Char) (r bs : List Char) (h : (shapeOf c r).1.isOpen = false) :
    shapeOf c (r ++ '\n' :: bs) = shapeOf c r ∧ (shapeOf c r).2 ≤ r.length := by
  rw [shapeOf] at h
  rw [shapeOf, shapeOf]
  by_cases hblank : isBlank c = true
  · simp [hblank]
  by_cases hdigit : isDigit c = true
  · simp [hblank, hdigit, numberTail_append, numberTail_le]
  by_cases hletter : isLetter c = true
  · simp [hblank, hdigit, hletter, run_append (p := isWordPart) (by decide), run_le]
  simp only [if_neg hblank, if_neg hdigit, if_neg hletter] at h ⊢
  by_cases hquote : c = '"'
  · simp only [if_pos hquote] at h ⊢
    exact stringTail_append r bs h
  by_cases hslash : c = '/'
  · simp only [if_neg hquote, if_pos hslash] at h ⊢
    exact slashTail_append r bs h
  · simp only [if_neg hquote, if_neg hslash]
    exact operatorTail_append c r bs

/-! ### All fragments -/

/-- Nothing is left open at the end of some characters. -/
def Closed (cs : List Char) : Prop := ∀ f ∈ all cs, f.shape.isOpen = false

theorem all_newline (cs : List Char) : all ('\n' :: cs) = ⟨.blank, ['\n']⟩ :: all cs := by
  rw [all_cons]
  rfl

/-- A line break between two sources is a fragment by itself. -/
theorem all_append {as : List Char} (h : Closed as) (bs : List Char) :
    all (as ++ '\n' :: bs) = all as ++ ⟨.blank, ['\n']⟩ :: all bs := by
  induction hn : as.length using Nat.strongRecOn generalizing as with
  | ind n ih =>
    cases as with
    | nil => exact all_newline bs
    | cons c r =>
      rw [Closed, all_cons, List.forall_mem_cons] at h
      obtain ⟨hshape, hle⟩ := shapeOf_append c r bs h.1
      -- the first fragment ends before the line break, and what is left of `as` is closed too
      rw [List.cons_append, all_cons, all_cons, hshape, List.take_append_of_le_length hle,
        List.drop_append_of_le_length hle, List.cons_append]
      rw [ih _ _ h.2 rfl]
      rw [← hn, List.length_cons, List.length_drop]
      omega

end Fragment

/-! ### Moving -/

/-- How much comes before a source: lines, bytes and tokens. -/
structure Offset where
  lines : Nat
  bytes : Nat
  tokens : Nat

/-- The same place when more comes before. -/
def Place.move (δ : Offset) (p : Place) : Place :=
  ⟨p.line + δ.lines, p.col + δ.bytes, p.idx + δ.tokens⟩

/-- The same token at a later place. -/
def Token.move (δ : Offset) (t : Token) : Token :=
  { t with line := t.line + δ.lines, col := t.col + δ.bytes, idx := t.idx + δ.tokens }

/-- The same error on a later line. -/
def ScanError.move (δ : Offset) (e : ScanError) : ScanError := { e with line := e.line + δ.lines }

/-- The same finding at a later place. -/
def Item.move (δ : Offset) : Item → Item
  | .token t => .token (t.move δ)
  | .error e => .error (e.move δ)

theorem Item.token?_move (δ : Offset) (i : Item) :
    (i.move δ).token? = i.token?.map (Token.move δ) := by
  cases i <;> rfl

theorem Item.error?_move (δ : Offset) (i : Item) :
    (i.move δ).error? = i.error?.map (ScanError.move δ) := by
  cases i <;> rfl

theorem Fragment.endLine_move (δ : Offset) (f : Fragment) (p : Place) :
    f.endLine (p.move δ) = f.endLine p + δ.lines := Nat.add_right_comm _ _ _

theorem Fragment.item?_move (δ : Offset) (f : Fragment) (p : Place) :
    f.item? (p.move δ) = (f.item? p).map (Item.move δ) := by
  rw [item?, item?, endLine_move]
  cases f.shape <;> rfl

theorem Fragment.next_move (δ : Offset) (f : Fragment) (p : Place) (i : Option Item) :
    f.next (p.move δ) (i.map (Item.move δ)) = (f.next p i).move δ := by
  have htoken : ((i.map (Item.move δ)).bind Item.token?).isSome = (i.bind Item.token?).isSome := by
    cases i with
    | none => rfl
    | some i => cases i <;> rfl
  rw [next, next, endLine_move, htoken]
  simp only [Place.move, Nat.add_right_comm]

namespace Scan

/-- Scanning goes on in the same way, whatever comes before. -/
theorem foldl_move (δ : Offset) (fs : List Fragment) (p : Place) (before found : Array Item) :
    fs.foldl step ⟨p.move δ, before ++ found.map (Item.move δ)⟩ =
      ⟨(fs.foldl step ⟨p, found⟩).place.move δ,
        before ++ (fs.foldl step ⟨p, found⟩).found.map (Item.move δ)⟩ := by
  induction fs generalizing p found with
  | nil => rfl
  | cons f fs ih =>
    have hfound : before ++ found.map (Item.move δ) ++ ((f.item? p).map (Item.move δ)).toArray =
        before ++ (found ++ (f.item? p).toArray).map (Item.move δ) := by
      cases f.item? p <;> simp
    rw [List.foldl_cons, List.foldl_cons, step, step, Fragment.item?_move]
    simp only [Fragment.next_move, hfound]
    exact ih _ _

end Scan

theorem bytesOf_append (as bs : List Char) : bytesOf (as ++ bs) = bytesOf as + bytesOf bs := by
  have hadd : ∀ (cs : List Char) n, cs.foldl (fun n c => n + c.utf8Size) n = n + bytesOf cs := by
    intro cs
    induction cs with
    | nil => exact fun _ => rfl
    | cons c cs ih =>
      intro n
      rw [bytesOf, List.foldl_cons, List.foldl_cons, ih, ih (0 + c.utf8Size)]
      omega
  rw [bytesOf, List.foldl_append, hadd]
  rfl

namespace Scan

/-- Scanning has gone over `cs`, and its place counts what is in there. -/
def Counts (s : Scan) (cs : List Char) : Prop :=
  s.place = ⟨1 + cs.count '\n', bytesOf cs, s.tokens.length⟩

theorem Counts.step {s : Scan} {cs : List Char} (h : s.Counts cs) (f : Fragment) :
    (s.step f).Counts (cs ++ f.text) := by
  have hidx : (s.step f).tokens.length =
      s.tokens.length + if ((f.item? s.place).bind Item.token?).isSome then 1 else 0 := by
    simp only [tokens, Scan.step, Array.toList_append, List.filterMap_append, List.length_append]
    cases f.item? s.place with
    | none => rfl
    | some i => cases i <;> rfl
  rw [Counts] at h ⊢
  rw [hidx, List.count_append, bytesOf_append, ← Nat.add_assoc]
  simp only [Scan.step, Fragment.next, Fragment.endLine, h]

theorem Counts.foldl {s : Scan} {cs : List Char} (h : s.Counts cs) (fs : List Fragment) :
    (fs.foldl Scan.step s).Counts (cs ++ fs.flatMap (·.text)) := by
  induction fs generalizing s cs with
  | nil => simpa using h
  | cons f fs ih =>
    rw [List.flatMap_cons, ← List.append_assoc]
    exact ih (h.step f)

/-- At the end of a source, the place counts all of it. -/
theorem counts_ofSource (src : String) : (ofSource src).Counts src.toList := by
  have h : (⟨.start, #[]⟩ : Scan).Counts [] := rfl
  have := h.foldl (Fragment.all src.toList)
  rwa [Fragment.flatMap_all, List.nil_append] at this

/-- What is found stays found. -/
theorem found_foldl {fs : List Fragment} {s : Scan} {i : Item} (h : i ∈ s.found) :
    i ∈ (fs.foldl step s).found := by
  induction fs generalizing s with
  | nil => exact h
  | cons f fs ih => exact ih (Array.mem_append.mpr (.inl h))

/-- Whatever a fragment says where it stands is found. -/
theorem exists_found {fs : List Fragment} {f : Fragment} (hf : f ∈ fs) (s : Scan) :
    ∃ p, ∀ i, f.item? p = some i → i ∈ (fs.foldl step s).found := by
  induction fs generalizing s with
  | nil => cases hf
  | cons g fs ih =>
    rcases List.mem_cons.mp hf with rfl | hf
    · refine ⟨s.place, fun i hi => ?_⟩
      have hstep : i ∈ (s.step f).found := Array.mem_append.mpr (.inr (by simp [hi]))
      rw [List.foldl_cons]
      exact found_foldl hstep
    · exact ih hf (s.step g)

end Scan

/-! ### Tokens -/

theorem scan_errors (src : String) :
    (scan src).2 = (Scan.ofSource src).found.toList.filterMap Item.error? := by
  simp [scan, Scan.items, Item.error?]

/-- Errors tell of everything that was left open. -/
theorem closed_of_errors {src : String}
    (h : ∀ e ∈ (scan src).2, e.flaw ≠ .openComment ∧ e.flaw ≠ .openString) :
    Fragment.Closed src.toList := by
  intro f hf
  obtain ⟨p, hp⟩ := Scan.exists_found hf ⟨.start, #[]⟩
  have herr : ∀ e, f.item? p = some (.error e) → e ∈ (scan src).2 := by
    intro e he
    rw [scan_errors]
    exact List.mem_filterMap.mpr ⟨_, by simpa [Scan.ofSource] using hp _ he, rfl⟩
  cases hs : f.shape with
  | openComment => exact absurd rfl (h _ (herr ⟨.openComment, _⟩ (by rw [Fragment.item?, hs]))).1
  | openString => exact absurd rfl (h _ (herr ⟨.openString, _⟩ (by rw [Fragment.item?, hs]))).2
  | _ => rfl

/-- What is before a source that stands on the lines behind `a`. -/
def Offset.behind (a : String) : Offset where
  lines := a.toList.count '\n' + 1
  bytes := bytesOf a.toList + 1
  tokens := (Scan.ofSource a).tokens.length

/-- Scanning `b` behind `a` and a line break is the same as scanning it alone, at a later place. -/
theorem Scan.ofSource_append {a : String} (h : Fragment.Closed a.toList) (b : String) :
    ofSource (a ++ "\n" ++ b) =
      ⟨(ofSource b).place.move (.behind a),
        (ofSource a).found ++ (ofSource b).found.map (Item.move (.behind a))⟩ := by
  have hlist : (a ++ "\n" ++ b).toList = a.toList ++ '\n' :: b.toList := by simp
  have hplace := counts_ofSource a
  rw [Counts] at hplace
  have hbreak : (ofSource a).step ⟨.blank, ['\n']⟩ =
      ⟨Place.start.move (.behind a),
        (ofSource a).found ++ (#[] : Array Item).map (Item.move (.behind a))⟩ := by
    have hone : ['\n'].count '\n' = 1 := rfl
    have hbyte : bytesOf ['\n'] = 1 := by decide
    have hfound : (ofSource a).found ++ (none : Option Item).toArray =
        (ofSource a).found ++ (#[] : Array Item).map (Item.move (.behind a)) := by simp
    simp only [step, Fragment.item?, Fragment.next, Fragment.endLine, hplace, hone, hbyte, hfound]
    simp only [Place.move, Place.start, Offset.behind, Nat.zero_add, Nat.add_assoc]
    rfl
  rw [ofSource, hlist, Fragment.all_append h, List.foldl_append, List.foldl_cons]
  rw [ofSource] at hbreak
  rw [hbreak, foldl_move]
  rfl

/-- The tokens of `a`, without its end, and then those of `b` at their places behind `a`. -/
theorem scan_append_tokens {a : String} (h : Fragment.Closed a.toList) (b : String) :
    (scan (a ++ "\n" ++ b)).1 =
      (Scan.ofSource a).tokens ++ (scan b).1.map (Token.move (.behind a)) := by
  have hmove : Item.token? ∘ Item.move (.behind a) =
      fun i => i.token?.map (Token.move (.behind a)) := funext (Item.token?_move _)
  rw [scan_tokens, scan_tokens, Scan.ofSource_append h]
  simp only [Scan.tokens, Array.toList_append, Array.toList_map, List.filterMap_append,
    List.filterMap_map, hmove, List.map_append, List.map_filterMap, List.append_assoc]
  rfl

theorem scan_append_errors {a : String} (h : Fragment.Closed a.toList) (b : String) :
    (scan (a ++ "\n" ++ b)).2 = (scan a).2 ++ (scan b).2.map (ScanError.move (.behind a)) := by
  have hmove : Item.error? ∘ Item.move (.behind a) =
      fun i => i.error?.map (ScanError.move (.behind a)) := funext (Item.error?_move _)
  rw [scan_errors, scan_errors, scan_errors, Scan.ofSource_append h]
  simp only [Array.toList_append, Array.toList_map, List.filterMap_append, List.filterMap_map,
    hmove, List.map_filterMap]

end Lox
