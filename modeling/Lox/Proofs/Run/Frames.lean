import Lox.Run.Heap

/-!
Laws of frames: what a frame binds, and which frames are around it, after a name has been bound
somewhere or a frame has been added. Binding a name changes what one frame binds it to, and a new
frame changes nothing about those that are there.
-/

namespace Lox

/-! ### Bindings -/

namespace Bindings

theorem lookup_put (b : Bindings) (x y : String) (v : Value) :
    (b.put x v).lookup y = if y = x then some v else b.lookup y := by
  induction b with
  | nil =>
    by_cases hy : y = x
    · simp [put, hy]
    · simp [put, List.lookup_cons, beq_false_of_ne hy, hy]
  | cons p b ih =>
    obtain ⟨z, w⟩ := p
    by_cases hz : z = x
    · rw [put, if_pos (beq_iff_eq.mpr hz), List.lookup_cons, List.lookup_cons, hz]
      by_cases hy : y = x
      · simp [hy]
      · simp [beq_false_of_ne hy, hy]
    · rw [put, if_neg (mt beq_iff_eq.mp hz), List.lookup_cons, List.lookup_cons, ih]
      by_cases hy : y = z
      · simp [hy, hz]
      · simp [beq_false_of_ne hy]

/-- Of parameters with one name, the last one counts. -/
theorem lookup_ofArguments (params : List Token) (args : List Value) (x : String) :
    (ofArguments params args).lookup x =
      ((params.zip args).reverse.find? (·.1.lexeme == x)).map Prod.snd := by
  rw [ofArguments, List.foldl_eq_foldr_reverse]
  induction (params.zip args).reverse with
  | nil => rfl
  | cons p ps ih =>
    rw [List.foldr_cons, lookup_put, List.find?_cons]
    by_cases hx : p.1.lexeme = x
    · simp [hx]
    · simp [beq_false_of_ne hx, Ne.symm hx, ih]

theorem mem_of_lookup_ofArguments {params : List Token} {args : List Value} {x : String} {v : Value}
    (h : (ofArguments params args).lookup x = some v) : v ∈ args := by
  rw [lookup_ofArguments, Option.map_eq_some_iff] at h
  obtain ⟨p, hp, rfl⟩ := h
  exact (List.of_mem_zip (List.mem_reverse.mp (List.mem_of_find?_eq_some hp))).2

/-- With an argument for each parameter, just the parameters are bound. -/
theorem isSome_lookup_ofArguments {params : List Token} {args : List Value} {x : String}
    (h : params.length = args.length) :
    ((ofArguments params args).lookup x).isSome = true ↔ ∃ p ∈ params, p.lexeme = x := by
  have hparams : (params.zip args).map Prod.fst = params := List.map_fst_zip (Nat.le_of_eq h)
  conv => rhs; rw [← hparams]
  rw [lookup_ofArguments, Option.isSome_map, List.find?_isSome]
  simp

end Bindings

namespace Heap

variable {h : Heap} {x y : String} {v w : Value} {vars : Bindings} {i j : FrameId}

/-! ### What is seen of a frame -/

/-- The frames around a frame, the nearest first. -/
def outer? (h : Heap) (i : FrameId) : Option (List FrameId) := h.frames[i]?.map Frame.outer

/-- The next frame around a frame. -/
def enclosing? (h : Heap) (i : FrameId) : Option FrameId := (h.outer? i).bind List.head?

/-- A frame binds a name by itself. -/
def Binds (h : Heap) (i : FrameId) (x : String) : Prop := (h.own? x i).isSome = true

theorem own?_eq (h : Heap) (x : String) (i : FrameId) :
    h.own? x i = h.frames[i]?.bind (·.vars.lookup x) := by
  rw [own?]
  cases h.frames[i]? <;> rfl

theorem chain_eq (h : Heap) (i : FrameId) : h.chain i = ((h.outer? i).map (i :: ·)).getD [] := by
  rw [chain, outer?]
  cases h.frames[i]? <;> rfl

theorem outer?_isSome : (h.outer? i).isSome = true ↔ i < h.frames.size := by
  simp [outer?]

theorem lt_size_of_outer? {o : List FrameId} (ho : h.outer? i = some o) : i < h.frames.size :=
  outer?_isSome.mp (by rw [ho]; rfl)

theorem lt_size_of_own? (hv : h.own? x i = some v) : i < h.frames.size := by
  rw [own?_eq, Option.bind_eq_some_iff] at hv
  obtain ⟨f, hf, -⟩ := hv
  exact (Array.getElem?_eq_some_iff.mp hf).1

theorem Binds.lt_size (hb : h.Binds i x) : i < h.frames.size := by
  obtain ⟨v, hv⟩ := Option.isSome_iff_exists.mp hb
  exact lt_size_of_own? hv

/-- A name means the same where the same frames bind it in the same way. -/
theorem nearest?_congr {h' : Heap} (hchain : h.chain i = h'.chain i)
    (hown : ∀ j ∈ h.chain i, h.own? x j = h'.own? x j) : h.nearest? x i = h'.nearest? x i := by
  rw [nearest?, nearest?, ← hchain]
  generalize h.chain i = is at hown
  induction is with
  | nil => rfl
  | cons j is ih =>
    obtain ⟨hj, his⟩ := List.forall_mem_cons.mp hown
    rw [List.findSome?_cons, List.findSome?_cons, hj, ih his]

/-! ### Binding a name -/

@[simp] theorem size_define : (h.define x v i).frames.size = h.frames.size := by
  simp [define]

@[simp] theorem outer?_define : (h.define x v i).outer? j = h.outer? j := by
  simp only [outer?, define, Array.getElem?_modify]
  by_cases hij : i = j
  · simp [hij, Function.comp_def]
  · simp [hij]

@[simp] theorem chain_define : (h.define x v i).chain j = h.chain j := by
  simp [chain_eq]

theorem frames_define_self :
    (h.define x v i).frames[i]? = h.frames[i]?.map fun f => { f with vars := f.vars.put x v } := by
  rw [define, Array.getElem?_modify, if_pos rfl]

theorem frames_define_ne (hij : i ≠ j) : (h.define x v i).frames[j]? = h.frames[j]? := by
  simp [define, Array.getElem?_modify, hij]

theorem own?_define (hi : i < h.frames.size) :
    (h.define x v i).own? y j = if j = i ∧ y = x then some v else h.own? y j := by
  by_cases hij : i = j
  · subst hij
    rw [own?_eq, define, Array.getElem?_modify, if_pos rfl, own?_eq, Array.getElem?_eq_getElem hi]
    simp [Bindings.lookup_put]
  · rw [own?_eq, frames_define_ne hij, ← own?_eq, if_neg fun hj => hij hj.1.symm]

/-- What is bound after a name has been bound was bound before, or is its new value. -/
theorem own?_define_cases (hw : (h.define x v i).own? y j = some w) :
    w = v ∨ h.own? y j = some w := by
  by_cases hij : i = j
  · subst hij
    rw [own?_define (by simpa using lt_size_of_own? hw)] at hw
    split at hw
    · exact .inl (Option.some.inj hw).symm
    · exact .inr hw
  · rw [own?_eq, frames_define_ne hij, ← own?_eq] at hw
    exact .inr hw

/-! ### A new frame -/

@[simp] theorem size_push : (h.push i vars).2.frames.size = h.frames.size + 1 := by
  simp [push]

theorem frames_push_of_lt (hj : j < h.frames.size) :
    (h.push i vars).2.frames[j]? = h.frames[j]? := by
  simp [push, Array.getElem?_push, Nat.ne_of_lt hj]

theorem frames_push_self : (h.push i vars).2.frames[h.frames.size]? = some ⟨h.chain i, vars⟩ := by
  simp [push]

theorem outer?_push_of_lt (hj : j < h.frames.size) : (h.push i vars).2.outer? j = h.outer? j := by
  rw [outer?, frames_push_of_lt hj, outer?]

theorem outer?_push_self : (h.push i vars).2.outer? h.frames.size = some (h.chain i) := by
  rw [outer?, frames_push_self]
  rfl

theorem chain_push_of_lt (hj : j < h.frames.size) : (h.push i vars).2.chain j = h.chain j := by
  rw [chain_eq, outer?_push_of_lt hj, ← chain_eq]

theorem own?_push_of_lt (hj : j < h.frames.size) :
    (h.push i vars).2.own? x j = h.own? x j := by
  rw [own?_eq, frames_push_of_lt hj, ← own?_eq]

theorem own?_push_self : (h.push i vars).2.own? x h.frames.size = vars.lookup x := by
  rw [own?_eq, frames_push_self]
  rfl

/-- A frame is there already, or it is the new one. -/
theorem lt_or_eq_of_lt_push (hj : j < (h.push i vars).2.frames.size) :
    j < h.frames.size ∨ j = h.frames.size := by
  rw [size_push] at hj
  exact Nat.lt_succ_iff_lt_or_eq.mp hj

/-- What is bound is bound in a frame that is there already, or in the new one. -/
theorem own?_push_cases (hw : (h.push i vars).2.own? y j = some w) :
    h.own? y j = some w ∨ j = h.frames.size ∧ vars.lookup y = some w := by
  rcases lt_or_eq_of_lt_push (lt_size_of_own? hw) with hj | rfl
  · exact .inl (own?_push_of_lt hj ▸ hw)
  · exact .inr ⟨rfl, own?_push_self ▸ hw⟩

end Heap
end Lox
