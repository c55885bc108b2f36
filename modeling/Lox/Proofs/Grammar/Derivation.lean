import Lox.Proofs.Grammar.Reading

/-!
The grammar of programs, over kinds of tokens alone. A derivation is counted by the levels of
nesting that it has open at once: each declaration, each statement, each expression in its own
right, each right side of an assignment and each operand of a prefix operator opens one, and nothing
else does.

An `else` may follow an `if` that ends in another `if`, and could then belong to either of them. The
rule for `else` says whether that is allowed, or whether an `else` always goes to the nearest `if`.
-/

namespace Lox

/-- The levels of the operators that stand between operands, from the tightest one on. -/
inductive Tier where
  | factor | term | comparison | equality | conjunction | disjunction
  deriving DecidableEq, Repr

/-- What the rules of the grammar are about. -/
inductive Category where
  | primary | call | arguments | argumentList | unary | operand
  | tier (t : Tier)
  | assignment | expression | optional
  | variable | init
  | statement (t : Tail)
  | parameters | parameterList
  | declaration | declarations
  deriving DecidableEq, Repr

/-- The operators of a level. -/
def Tier.ops : Tier → Kind → Bool
  | .factor => Parse.isFactorOp
  | .term => Parse.isTermOp
  | .comparison => Parse.isComparisonOp
  | .equality => Parse.isEqualityOp
  | .conjunction => (· == .kwAnd)
  | .disjunction => (· == .kwOr)

/-- What the operators of a level stand between: the next tighter level. -/
def Tier.operands : Tier → Category
  | .factor => .unary
  | .term => .tier .factor
  | .comparison => .tier .term
  | .equality => .tier .comparison
  | .conjunction => .tier .equality
  | .disjunction => .tier .conjunction

/-- The tokens that are a literal by themselves. -/
def isLiteral : Kind → Bool
  | .kwTrue | .kwFalse | .kwNil | .number | .string => true
  | _ => false

/-- Which `if` an `else` may belong to. -/
inductive ElseRule where
  | any | nearest
  deriving DecidableEq, Repr

open Parse in
/-- `Derives r c n w`: the kinds `w` are a phrase of the category `c`, by a derivation that never
has more than `n` levels open at once. -/
inductive Derives (r : ElseRule) : Category → Nat → List Kind → Prop where
  | literal {n} (k : Kind) : isLiteral k = true → Derives r .primary n [k]
  | name {n} : Derives r .primary n [.identifier]
  | group {n w} : Derives r .expression n w →
      Derives r .primary n (.leftParen :: (w ++ [.rightParen]))
  | callee {n w} : Derives r .primary n w → Derives r .call n w
  | call {n u v} : Derives r .call n u → Derives r .arguments n v →
      Derives r .call n (u ++ .leftParen :: (v ++ [.rightParen]))
  | noArguments {n} : Derives r .arguments n []
  | someArguments {n w} : Derives r .argumentList n w → Derives r .arguments n w
  | oneArgument {n w} : Derives r .expression n w → Derives r .argumentList n w
  | moreArguments {n u v} : Derives r .argumentList n u → Derives r .expression n v →
      Derives r .argumentList n (u ++ .comma :: v)
  | prefixed {n w} (k : Kind) : isPrefixOp k = true → Derives r .operand n w →
      Derives r .unary n (k :: w)
  | called {n w} : Derives r .call n w → Derives r .unary n w
  | operand {n w} : Derives r .unary n w → Derives r .operand (n + 1) w
  | tighter {n w} (t : Tier) : Derives r t.operands n w → Derives r (.tier t) n w
  | operator {n u v} (t : Tier) (k : Kind) : Derives r (.tier t) n u → t.ops k = true →
      Derives r t.operands n v → Derives r (.tier t) n (u ++ k :: v)
  | plain {n w} : Derives r (.tier .disjunction) n w → Derives r .assignment n w
  | assign {n u v} : Derives r (.tier .disjunction) n u → Derives r .expression n v →
      Derives r .assignment n (u ++ .equal :: v)
  | expression {n w} : Derives r .assignment n w → Derives r .expression (n + 1) w
  | absent {n} : Derives r .optional n []
  | present {n w} : Derives r .expression n w → Derives r .optional n w
  | bare {n} : Derives r .variable n [.identifier, .semicolon]
  | initialized {n w} : Derives r .expression n w →
      Derives r .variable n (.identifier :: .equal :: (w ++ [.semicolon]))
  | initNone {n} : Derives r .init n [.semicolon]
  | initVariable {n w} : Derives r .variable n w → Derives r .init n (.kwVar :: w)
  | initEffect {n w} : Derives r .expression n w → Derives r .init n (w ++ [.semicolon])
  | effect {n w} : Derives r .expression n w →
      Derives r (.statement .closed) (n + 1) (w ++ [.semicolon])
  | print {n w} : Derives r .expression n w →
      Derives r (.statement .closed) (n + 1) (.kwPrint :: (w ++ [.semicolon]))
  | ret {n w} : Derives r .optional n w →
      Derives r (.statement .closed) (n + 1) (.kwReturn :: (w ++ [.semicolon]))
  | block {n w} : Derives r .declarations n w →
      Derives r (.statement .closed) (n + 1) (.leftBrace :: (w ++ [.rightBrace]))
  | loop {n t c s} : Derives r .expression n c → Derives r (.statement t) n s →
      Derives r (.statement t) (n + 1) (.kwWhile :: .leftParen :: (c ++ .rightParen :: s))
  | forLoop {n t i c m s} : Derives r .init n i → Derives r .optional n c →
      Derives r .optional n m → Derives r (.statement t) n s →
      Derives r (.statement t) (n + 1)
        (.kwFor :: .leftParen :: (i ++ (c ++ .semicolon :: (m ++ .rightParen :: s))))
  | branch {n t c s} : Derives r .expression n c → Derives r (.statement t) n s →
      Derives r (.statement .dangling) (n + 1) (.kwIf :: .leftParen :: (c ++ .rightParen :: s))
  | branchElse {n t t' c s s'} : Derives r .expression n c → Derives r (.statement t) n s →
      (r = .nearest → t = .closed) → Derives r (.statement t') n s' →
      Derives r (.statement t') (n + 1)
        (.kwIf :: .leftParen :: (c ++ .rightParen :: (s ++ .kwElse :: s')))
  | noParameters {n} : Derives r .parameters n []
  | someParameters {n w} : Derives r .parameterList n w → Derives r .parameters n w
  | oneParameter {n} : Derives r .parameterList n [.identifier]
  | moreParameters {n u} : Derives r .parameterList n u →
      Derives r .parameterList n (u ++ [.comma, .identifier])
  | function {n p b} : Derives r .parameters n p → Derives r .declarations n b →
      Derives r .declaration (n + 1) (.kwFun :: .identifier :: .leftParen ::
        (p ++ .rightParen :: .leftBrace :: (b ++ [.rightBrace])))
  | varDeclaration {n w} : Derives r .variable n w →
      Derives r .declaration (n + 1) (.kwVar :: w)
  | statement {n t w} : Derives r (.statement t) n w → Derives r .declaration (n + 1) w
  | nil {n} : Derives r .declarations n []
  | cons {n u v} : Derives r .declaration n u → Derives r .declarations n v →
      Derives r .declarations n (u ++ v)

namespace Derives

/-- What opens a level is there for any number of levels beyond those of its parts. -/
theorem opened {r : ElseRule} {c : Category} {w : List Kind} {n m : Nat} (hm : n + 1 ≤ m)
    (h : ∀ k, n ≤ k → Derives r c (k + 1) w) : Derives r c m w := by
  obtain ⟨k, rfl⟩ := Nat.exists_eq_add_of_le' hm
  rw [← Nat.add_assoc]
  exact h _ (Nat.le_add_left n k)

/-- More levels may be opened than are needed. -/
theorem mono {r : ElseRule} {c : Category} {n : Nat} {w : List Kind} (h : Derives r c n w) :
    ∀ {m}, n ≤ m → Derives r c m w := by
  induction h with
  | literal k hk => exact fun _ => .literal k hk
  | name => exact fun _ => .name
  | group _ ih => exact fun hm => .group (ih hm)
  | callee _ ih => exact fun hm => .callee (ih hm)
  | call _ _ ih ih' => exact fun hm => .call (ih hm) (ih' hm)
  | noArguments => exact fun _ => .noArguments
  | someArguments _ ih => exact fun hm => .someArguments (ih hm)
  | oneArgument _ ih => exact fun hm => .oneArgument (ih hm)
  | moreArguments _ _ ih ih' => exact fun hm => .moreArguments (ih hm) (ih' hm)
  | prefixed k hk _ ih => exact fun hm => .prefixed k hk (ih hm)
  | called _ ih => exact fun hm => .called (ih hm)
  | tighter t _ ih => exact fun hm => .tighter t (ih hm)
  | operator t k _ hk _ ih ih' => exact fun hm => .operator t k (ih hm) hk (ih' hm)
  | plain _ ih => exact fun hm => .plain (ih hm)
  | assign _ _ ih ih' => exact fun hm => .assign (ih hm) (ih' hm)
  | absent => exact fun _ => .absent
  | present _ ih => exact fun hm => .present (ih hm)
  | bare => exact fun _ => .bare
  | initialized _ ih => exact fun hm => .initialized (ih hm)
  | initNone => exact fun _ => .initNone
  | initVariable _ ih => exact fun hm => .initVariable (ih hm)
  | initEffect _ ih => exact fun hm => .initEffect (ih hm)
  | noParameters => exact fun _ => .noParameters
  | someParameters _ ih => exact fun hm => .someParameters (ih hm)
  | oneParameter => exact fun _ => .oneParameter
  | moreParameters _ ih => exact fun hm => .moreParameters (ih hm)
  | nil => exact fun _ => .nil
  | cons _ _ ih ih' => exact fun hm => .cons (ih hm) (ih' hm)
  | operand _ ih => exact fun hm => opened hm fun _ hk => .operand (ih hk)
  | expression _ ih => exact fun hm => opened hm fun _ hk => .expression (ih hk)
  | effect _ ih => exact fun hm => opened hm fun _ hk => .effect (ih hk)
  | print _ ih => exact fun hm => opened hm fun _ hk => .print (ih hk)
  | ret _ ih => exact fun hm => opened hm fun _ hk => .ret (ih hk)
  | block _ ih => exact fun hm => opened hm fun _ hk => .block (ih hk)
  | loop _ _ ih ih' => exact fun hm => opened hm fun _ hk => .loop (ih hk) (ih' hk)
  | forLoop _ _ _ _ ihi ihc ihm ihs =>
    exact fun hm => opened hm fun _ hk => .forLoop (ihi hk) (ihc hk) (ihm hk) (ihs hk)
  | branch _ _ ih ih' => exact fun hm => opened hm fun _ hk => .branch (ih hk) (ih' hk)
  | branchElse _ _ ht _ ihc ihs ihs' =>
    exact fun hm => opened hm fun _ hk => .branchElse (ihc hk) (ihs hk) ht (ihs' hk)
  | function _ _ ih ih' => exact fun hm => opened hm fun _ hk => .function (ih hk) (ih' hk)
  | varDeclaration _ ih => exact fun hm => opened hm fun _ hk => .varDeclaration (ih hk)
  | statement _ ih => exact fun hm => opened hm fun _ hk => .statement (ih hk)

/-- No phrase has an end marker in it. -/
theorem eof_not_mem {r : ElseRule} {c : Category} {n : Nat} {w : List Kind}
    (h : Derives r c n w) : .eof ∉ w := by
  have hops : ∀ (t : Tier) k, t.ops k = true → k ≠ .eof := by
    rintro t k hk rfl
    cases t <;> cases hk
  induction h with
  | literal k hk =>
    rintro h
    obtain rfl := List.mem_singleton.mp h
    cases hk
  | prefixed k hk _ ih =>
    rintro h
    rcases List.mem_cons.mp h with rfl | h
    · cases hk
    · exact ih h
  | operator t k _ hk _ ih ih' => simp [ih, ih', (hops t k hk).symm]
  | _ => simp_all

/-! ### The nearest `if`

An `else` that was given to an `if` further out can be handed on to the nearest one. The derivation
changes, and with it the levels that it opens, but the words are the same. -/

/-- A statement that ends in an `if` without an `else` can take one. -/
theorem takeElse {n : Nat} {u : List Kind} (h : Derives .nearest (.statement .dangling) n u)
    {m : Nat} {t : Tail} {v : List Kind} (hv : Derives .nearest (.statement t) m v) :
    ∃ t' k, Derives .nearest (.statement t') k (u ++ .kwElse :: v) := by
  generalize hc : Category.statement .dangling = c at h
  induction h with
  | @loop n t' c s hcond hbody _ ih =>
    obtain rfl : Tail.dangling = t' := by simpa using hc
    obtain ⟨t', k, hs⟩ := ih rfl
    have hall := Derives.loop (hcond.mono (Nat.le_max_left n k)) (hs.mono (Nat.le_max_right n k))
    exact ⟨t', _, by simpa using hall⟩
  | @forLoop n t' i c s b hi hcond hs hbody _ _ _ ih =>
    obtain rfl : Tail.dangling = t' := by simpa using hc
    obtain ⟨t', k, hb⟩ := ih rfl
    have hle := Nat.le_max_left n k
    have hall := Derives.forLoop (hi.mono hle) (hcond.mono hle) (hs.mono hle)
      (hb.mono (Nat.le_max_right n k))
    exact ⟨t', _, by simpa using hall⟩
  | @branch n t' c s hcond hbody _ ih =>
    cases t' with
    | closed =>
      have hle := Nat.le_max_left n m
      have hall := Derives.branchElse (hcond.mono hle) (hbody.mono hle) (fun _ => rfl)
        (hv.mono (Nat.le_max_right n m))
      exact ⟨t, _, by simpa using hall⟩
    | dangling =>
      obtain ⟨t', k, hs⟩ := ih rfl
      have hall := Derives.branch (hcond.mono (Nat.le_max_left n k))
        (hs.mono (Nat.le_max_right n k))
      exact ⟨.dangling, _, by simpa using hall⟩
  | @branchElse n t₁ t' c s s' hcond hyes ht hno _ _ ih =>
    obtain rfl : Tail.dangling = t' := by simpa using hc
    obtain ⟨t', k, hs⟩ := ih rfl
    have hle := Nat.le_max_left n k
    have hall := Derives.branchElse (hcond.mono hle) (hyes.mono hle) ht
      (hs.mono (Nat.le_max_right n k))
    exact ⟨t', _, by simpa using hall⟩
  | _ => simp at hc

/-- Two phrases have derivations within the same number of levels. -/
theorem join {r : ElseRule} {c c' : Category} {u v : List Kind} (h : ∃ k, Derives r c k u)
    (h' : ∃ k, Derives r c' k v) : ∃ k, Derives r c k u ∧ Derives r c' k v := by
  obtain ⟨k, h⟩ := h
  obtain ⟨k', h'⟩ := h'
  exact ⟨max k k', h.mono (Nat.le_max_left k k'), h'.mono (Nat.le_max_right k k')⟩

/-- Derivable with every `else` at the nearest `if`; another `if` may end a statement. -/
def Nearest (w : List Kind) : Category → Prop
  | .statement _ => ∃ t k, Derives .nearest (.statement t) k w
  | c => ∃ k, Derives .nearest c k w

theorem nearest_operands {w : List Kind} {t : Tier} (h : Nearest w t.operands) :
    ∃ k, Derives .nearest t.operands k w := by
  cases t <;> exact h

/-- Whatever can be derived at all can be derived with every `else` at the nearest `if`. -/
theorem nearest {r : ElseRule} {c : Category} {n : Nat} {w : List Kind} (h : Derives r c n w) :
    Nearest w c := by
  induction h with
  | literal k hk => exact ⟨0, .literal k hk⟩
  | name => exact ⟨0, .name⟩
  | group _ ih => obtain ⟨k, h⟩ := ih; exact ⟨k, .group h⟩
  | callee _ ih => obtain ⟨k, h⟩ := ih; exact ⟨k, .callee h⟩
  | call _ _ ih ih' => obtain ⟨k, h, h'⟩ := join ih ih'; exact ⟨k, .call h h'⟩
  | noArguments => exact ⟨0, .noArguments⟩
  | someArguments _ ih => obtain ⟨k, h⟩ := ih; exact ⟨k, .someArguments h⟩
  | oneArgument _ ih => obtain ⟨k, h⟩ := ih; exact ⟨k, .oneArgument h⟩
  | moreArguments _ _ ih ih' => obtain ⟨k, h, h'⟩ := join ih ih'; exact ⟨k, .moreArguments h h'⟩
  | prefixed k hk _ ih => obtain ⟨m, h⟩ := ih; exact ⟨m, .prefixed k hk h⟩
  | called _ ih => obtain ⟨k, h⟩ := ih; exact ⟨k, .called h⟩
  | operand _ ih => obtain ⟨k, h⟩ := ih; exact ⟨k + 1, .operand h⟩
  | tighter t _ ih => obtain ⟨k, h⟩ := nearest_operands ih; exact ⟨k, .tighter t h⟩
  | operator t k _ hk _ ih ih' =>
    obtain ⟨m, h, h'⟩ := join ih (nearest_operands ih')
    exact ⟨m, .operator t k h hk h'⟩
  | plain _ ih => obtain ⟨k, h⟩ := ih; exact ⟨k, .plain h⟩
  | assign _ _ ih ih' => obtain ⟨k, h, h'⟩ := join ih ih'; exact ⟨k, .assign h h'⟩
  | expression _ ih => obtain ⟨k, h⟩ := ih; exact ⟨k + 1, .expression h⟩
  | absent => exact ⟨0, .absent⟩
  | present _ ih => obtain ⟨k, h⟩ := ih; exact ⟨k, .present h⟩
  | bare => exact ⟨0, .bare⟩
  | initialized _ ih => obtain ⟨k, h⟩ := ih; exact ⟨k, .initialized h⟩
  | initNone => exact ⟨0, .initNone⟩
  | initVariable _ ih => obtain ⟨k, h⟩ := ih; exact ⟨k, .initVariable h⟩
  | initEffect _ ih => obtain ⟨k, h⟩ := ih; exact ⟨k, .initEffect h⟩
  | effect _ ih => obtain ⟨k, h⟩ := ih; exact ⟨.closed, k + 1, .effect h⟩
  | print _ ih => obtain ⟨k, h⟩ := ih; exact ⟨.closed, k + 1, .print h⟩
  | ret _ ih => obtain ⟨k, h⟩ := ih; exact ⟨.closed, k + 1, .ret h⟩
  | block _ ih => obtain ⟨k, h⟩ := ih; exact ⟨.closed, k + 1, .block h⟩
  | loop _ _ ih ih' =>
    obtain ⟨t, hs⟩ := ih'
    obtain ⟨k, h, hs⟩ := join ih hs
    exact ⟨t, k + 1, .loop h hs⟩
  | forLoop _ _ _ _ ihi ihc ihm ihs =>
    obtain ⟨t, hs⟩ := ihs
    obtain ⟨k, hi, hc⟩ := join ihi ihc
    obtain ⟨l, hm, hs⟩ := join ihm hs
    have hk := Nat.le_max_left k l
    have hl := Nat.le_max_right k l
    exact ⟨t, _, .forLoop (hi.mono hk) (hc.mono hk) (hm.mono hl) (hs.mono hl)⟩
  | branch _ _ ih ih' =>
    obtain ⟨t, hs⟩ := ih'
    obtain ⟨k, h, hs⟩ := join ih hs
    exact ⟨.dangling, k + 1, .branch h hs⟩
  | branchElse _ _ _ _ ihc ihs ihs' =>
    obtain ⟨t, hs⟩ := ihs
    obtain ⟨t', hs'⟩ := ihs'
    obtain ⟨k, hc, hs⟩ := join ihc hs
    cases t with
    | closed =>
      obtain ⟨l, hs'⟩ := hs'
      have hk := Nat.le_max_left k l
      exact ⟨t', _, .branchElse (hc.mono hk) (hs.mono hk) (fun _ => rfl)
        (hs'.mono (Nat.le_max_right k l))⟩
    | dangling =>
      -- the `else` goes to an `if` at the end of the branch before it
      obtain ⟨l, hs'⟩ := hs'
      obtain ⟨t, m, hall⟩ := takeElse hs hs'
      have hk := Nat.le_max_left k m
      exact ⟨.dangling, _, .branch (hc.mono hk) (hall.mono (Nat.le_max_right k m))⟩
  | noParameters => exact ⟨0, .noParameters⟩
  | someParameters _ ih => obtain ⟨k, h⟩ := ih; exact ⟨k, .someParameters h⟩
  | oneParameter => exact ⟨0, .oneParameter⟩
  | moreParameters _ ih => obtain ⟨k, h⟩ := ih; exact ⟨k, .moreParameters h⟩
  | function _ _ ih ih' => obtain ⟨k, h, h'⟩ := join ih ih'; exact ⟨k + 1, .function h h'⟩
  | varDeclaration _ ih => obtain ⟨k, h⟩ := ih; exact ⟨k + 1, .varDeclaration h⟩
  | statement _ ih => obtain ⟨t, k, h⟩ := ih; exact ⟨k + 1, .statement h⟩
  | nil => exact ⟨0, .nil⟩
  | cons _ _ ih ih' => obtain ⟨k, h, h'⟩ := join ih ih'; exact ⟨k, .cons h h'⟩

end Derives
end Lox
