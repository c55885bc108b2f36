import Lox.Proofs.Grammar.Like
import Lox.Proofs.Grammar.WellFormed

/-!
The tokens at which a program may fault. A tree keeps only tokens that were there to be parsed, and
each of them is of a kind that belongs where it stands.
-/

namespace Lox
open Parse

/-! ### Where tokens come from -/

section
variable {R : Token → Token → Prop}

mutual

/-- Every token in a tree corresponds to one in a tree that is alike. -/
theorem Expr.Like.kept : ∀ {e e' : Expr}, Expr.Like R e e' → ∀ t ∈ e.kept, ∃ t', R t t'
  | .literal _, _, _ => nofun
  | .variable _, _, h => by
    cases h with
    | «variable» hx => exact List.forall_mem_singleton.mpr ⟨_, hx⟩
  | .assign _ _, _, h => by
    cases h with
    | assign hx he => exact List.forall_mem_cons.mpr ⟨⟨_, hx⟩, he.kept⟩
  | .unary _ _, _, h => by
    cases h with
    | unary hop he => exact List.forall_mem_cons.mpr ⟨⟨_, hop⟩, he.kept⟩
  | .binary _ _ _, _, h => by
    cases h with
    | binary hl hop hr =>
      exact List.forall_mem_append.mpr
        ⟨hl.kept, List.forall_mem_cons.mpr ⟨⟨_, hop⟩, hr.kept⟩⟩
  | .logical _ _ _, _, h => by
    cases h with
    | logical hl hop hr =>
      exact List.forall_mem_append.mpr
        ⟨hl.kept, List.forall_mem_cons.mpr ⟨⟨_, hop⟩, hr.kept⟩⟩
  | .grouping _, _, h => by
    cases h with
    | grouping he => exact he.kept
  | .call _ _ _, _, h => by
    cases h with
    | call hf hparen hargs =>
      exact List.forall_mem_append.mpr
        ⟨hf.kept, List.forall_mem_cons.mpr ⟨⟨_, hparen⟩, Expr.Like.allKept hargs⟩⟩

theorem Expr.Like.allKept : ∀ {es es' : List Expr}, List.Forall₂ (Expr.Like R) es es' →
    ∀ t ∈ Expr.allKept es, ∃ t', R t t'
  | [], _, _ => nofun
  | _ :: _, _, h => by
    cases h with
    | cons he hes => exact List.forall_mem_append.mpr ⟨he.kept, Expr.Like.allKept hes⟩

end

theorem Expr.Like.optionKept {e e' : Option Expr} (h : Option.Rel (Expr.Like R) e e') :
    ∀ t ∈ (e.map Expr.kept).getD [], ∃ t', R t t' := by
  cases h with
  | none => exact nofun
  | some he => exact he.kept

mutual

theorem Stmt.Like.kept : ∀ {s s' : Stmt}, Stmt.Like R s s' → ∀ t ∈ s.kept, ∃ t', R t t'
  | .expression _, _, h => by
    cases h with
    | expression he => exact he.kept
  | .print _ _, _, h => by
    cases h with
    | print hk he => exact List.forall_mem_cons.mpr ⟨⟨_, hk⟩, he.kept⟩
  | .var _ _, _, h => by
    cases h with
    | var hx he => exact List.forall_mem_cons.mpr ⟨⟨_, hx⟩, Expr.Like.optionKept he⟩
  | .ret _ _, _, h => by
    cases h with
    | ret hk he => exact List.forall_mem_cons.mpr ⟨⟨_, hk⟩, Expr.Like.optionKept he⟩
  | .function _ ps _, _, h => by
    cases h with
    | function hx hps hbody =>
      have hparams : ∀ t ∈ ps, ∃ t', R t t' :=
        ((List.forall₂_and_left _ _).mp (hps.imp fun _ t' h => ⟨⟨t', h⟩, h⟩)).1
      exact List.forall_mem_cons.mpr
        ⟨⟨_, hx⟩, List.forall_mem_append.mpr ⟨hparams, Stmt.Like.allKept hbody⟩⟩
  | .block _, _, h => by
    cases h with
    | block hbody => exact Stmt.Like.allKept hbody
  | .branch _ _ none, _, h => by
    cases h with
    | lone hc hyes => exact List.forall_mem_append.mpr ⟨hc.kept, hyes.kept⟩
  | .branch _ _ (some _), _, h => by
    cases h with
    | both hc hyes hno =>
      exact List.forall_mem_append.mpr
        ⟨hc.kept, List.forall_mem_append.mpr ⟨hyes.kept, hno.kept⟩⟩
  | .loop _ _, _, h => by
    cases h with
    | loop hc hbody => exact List.forall_mem_append.mpr ⟨hc.kept, hbody.kept⟩

theorem Stmt.Like.allKept : ∀ {ss ss' : List Stmt}, List.Forall₂ (Stmt.Like R) ss ss' →
    ∀ t ∈ Stmt.allKept ss, ∃ t', R t t'
  | [], _, _ => nofun
  | _ :: _, _, h => by
    cases h with
    | cons hs hss => exact List.forall_mem_append.mpr ⟨hs.kept, Stmt.Like.allKept hss⟩

end

end

/-- Whatever a program keeps was among the tokens that it was parsed from. -/
theorem Parser.parse_kept {ts : List Token} {ss : List Stmt}
    (h : (Parser.ofTokens ts).parse.1 = .ok ss) : ∀ t ∈ Stmt.allKept ss, t ∈ ts := by
  have hid : Reading.Keeps id := ⟨fun _ => rfl, fun _ => rfl⟩
  obtain ⟨_, -, hlike⟩ := Parser.parse_map (R := fun t _ => t ∈ ts) hid (fun _ ht => ht) h
  intro t ht
  obtain ⟨-, hmem⟩ := Stmt.Like.allKept hlike t ht
  exact hmem

/-! ### Where tokens stand -/

/-- An expression all of whose faults show at tokens among `T`, which are of the kinds that belong
there. -/
inductive Expr.Proper (T : Token → Prop) : Expr → Prop where
  | literal (v : Literal) : Proper T (.literal v)
  | «variable» {x : Token} : T x → x.kind = .identifier → Proper T (.variable x)
  | assign {x : Token} {e : Expr} : T x → x.kind = .identifier → Proper T e →
      Proper T (.assign x e)
  | unary {op : Token} {e : Expr} : T op → isPrefixOp op.kind = true → Proper T e →
      Proper T (.unary op e)
  | binary {l : Expr} {op : Token} {r : Expr} : Proper T l → T op → isBinaryOp op.kind = true →
      Proper T r → Proper T (.binary l op r)
  | logical {l : Expr} {op : Token} {r : Expr} : Proper T l → Proper T r →
      Proper T (.logical l op r)
  | grouping {e : Expr} : Proper T e → Proper T (.grouping e)
  | call {f : Expr} {paren : Token} {args : List Expr} : Proper T f → T paren →
      paren.kind = .rightParen → args.length ≤ maxArguments → (∀ e ∈ args, Proper T e) →
      Proper T (.call f paren args)

/-- A statement all of whose faults show at tokens among `T`, which are of the kinds that belong
there. -/
inductive Stmt.Proper (T : Token → Prop) : Stmt → Prop where
  | expression {e : Expr} : e.Proper T → Proper T (.expression e)
  | print {k : Token} {e : Expr} : T k → k.kind = .kwPrint → e.Proper T → Proper T (.print k e)
  | var {x : Token} {e : Option Expr} : (∀ v ∈ e, v.Proper T) → Proper T (.var x e)
  | function {x : Token} {ps : List Token} {body : List Stmt} : ps.length ≤ maxParameters →
      (∀ s ∈ body, Proper T s) → Proper T (.function x ps body)
  | block {body : List Stmt} : (∀ s ∈ body, Proper T s) → Proper T (.block body)
  | branch {c : Expr} {yes : Stmt} {no : Option Stmt} : c.Proper T → Proper T yes →
      (∀ s ∈ no, Proper T s) → Proper T (.branch c yes no)
  | loop {c : Expr} {body : Stmt} : c.Proper T → Proper T body → Proper T (.loop c body)
  | ret {k : Token} {e : Option Expr} : (∀ v ∈ e, v.Proper T) → Proper T (.ret k e)

section
variable {T : Token → Prop}

mutual

/-- In a well-formed expression all tokens stand where they belong. -/
theorem Expr.proper : ∀ {e : Expr}, e.wellFormed = true → (∀ t ∈ e.kept, T t) → e.Proper T
  | .literal v, _, _ => .literal v
  | .variable x, hw, hT => .variable (hT x List.mem_cons_self) (beq_iff_eq.mp hw)
  | .assign x e, hw, hT => by
    simp only [wellFormed, Bool.and_eq_true, beq_iff_eq] at hw
    obtain ⟨hx, he⟩ := List.forall_mem_cons.mp hT
    exact .assign hx hw.1 (Expr.proper hw.2 he)
  | .unary op e, hw, hT => by
    simp only [wellFormed, Bool.and_eq_true] at hw
    obtain ⟨hop, he⟩ := List.forall_mem_cons.mp hT
    exact .unary hop hw.1.1 (Expr.proper hw.2 he)
  | .binary l op r, hw, hT => by
    simp only [wellFormed, Bool.and_eq_true] at hw
    simp only [kept, List.forall_mem_append, List.forall_mem_cons] at hT
    exact .binary (Expr.proper hw.1.2 hT.1) hT.2.1 hw.1.1.1.1 (Expr.proper hw.2 hT.2.2)
  | .logical l op r, hw, hT => by
    simp only [wellFormed, Bool.and_eq_true] at hw
    simp only [kept, List.forall_mem_append, List.forall_mem_cons] at hT
    exact .logical (Expr.proper hw.1.2 hT.1) (Expr.proper hw.2 hT.2.2)
  | .grouping e, hw, hT => .grouping (Expr.proper hw hT)
  | .call f paren args, hw, hT => by
    simp only [wellFormed, Bool.and_eq_true, beq_iff_eq, decide_eq_true_eq] at hw
    simp only [kept, List.forall_mem_append, List.forall_mem_cons] at hT
    exact .call (Expr.proper hw.1.1.2 hT.1) hT.2.1 hw.1.1.1.1 hw.1.2
      (Expr.allProper hw.2 hT.2.2)

theorem Expr.allProper : ∀ {es : List Expr}, Expr.allWellFormed es = true →
    (∀ t ∈ Expr.allKept es, T t) → ∀ e ∈ es, e.Proper T
  | [], _, _ => nofun
  | e :: es, hw, hT => by
    rw [allWellFormed, Bool.and_eq_true] at hw
    obtain ⟨he, hes⟩ := List.forall_mem_append.mp hT
    exact List.forall_mem_cons.mpr ⟨Expr.proper hw.1 he, Expr.allProper hw.2 hes⟩

end

theorem Expr.optionProper {e : Option Expr} (hw : e.all Expr.wellFormed = true)
    (hT : ∀ t ∈ (e.map Expr.kept).getD [], T t) : ∀ v ∈ e, v.Proper T := by
  rintro v rfl
  exact Expr.proper hw hT

mutual

/-- In a well-formed statement all tokens stand where they belong. -/
theorem Stmt.proper : ∀ {s : Stmt}, s.wellFormed = true → (∀ t ∈ s.kept, T t) → s.Proper T
  | .expression e, hw, hT => .expression (Expr.proper hw hT)
  | .print k e, hw, hT => by
    simp only [wellFormed, Bool.and_eq_true, beq_iff_eq] at hw
    obtain ⟨hk, he⟩ := List.forall_mem_cons.mp hT
    exact .print hk hw.1 (Expr.proper hw.2 he)
  | .var x e, hw, hT => by
    simp only [wellFormed, Bool.and_eq_true] at hw
    exact .var (Expr.optionProper hw.2 (List.forall_mem_cons.mp hT).2)
  | .function x ps body, hw, hT => by
    simp only [wellFormed, Bool.and_eq_true, decide_eq_true_eq] at hw
    simp only [kept, List.forall_mem_append, List.forall_mem_cons] at hT
    exact .function hw.1.2 (Stmt.allProper hw.2 hT.2.2)
  | .block body, hw, hT => .block (Stmt.allProper hw hT)
  | .branch c yes none, hw, hT => by
    simp only [wellFormed, Bool.and_eq_true] at hw
    obtain ⟨hc, hyes⟩ := List.forall_mem_append.mp hT
    exact .branch (Expr.proper hw.1.1 hc) (Stmt.proper hw.2 hyes) nofun
  | .branch c yes (some no), hw, hT => by
    simp only [wellFormed, Bool.and_eq_true] at hw
    simp only [kept, List.forall_mem_append] at hT
    obtain ⟨⟨⟨⟨⟨hc, -⟩, hyes⟩, -⟩, -⟩, hno⟩ := hw
    refine .branch (Expr.proper hc hT.1) (Stmt.proper hyes hT.2.1) ?_
    rintro _ ⟨rfl⟩
    exact Stmt.proper hno hT.2.2
  | .loop c body, hw, hT => by
    simp only [wellFormed, Bool.and_eq_true] at hw
    obtain ⟨hc, hbody⟩ := List.forall_mem_append.mp hT
    exact .loop (Expr.proper hw.1.1 hc) (Stmt.proper hw.2 hbody)
  | .ret k e, hw, hT => by
    simp only [wellFormed, Bool.and_eq_true] at hw
    exact .ret (Expr.optionProper hw.2 (List.forall_mem_cons.mp hT).2)

theorem Stmt.allProper : ∀ {ss : List Stmt}, Stmt.allWellFormed ss = true →
    (∀ t ∈ Stmt.allKept ss, T t) → ∀ s ∈ ss, s.Proper T
  | [], _, _ => nofun
  | s :: ss, hw, hT => by
    rw [allWellFormed, Bool.and_eq_true] at hw
    obtain ⟨hs, hss⟩ := List.forall_mem_append.mp hT
    exact List.forall_mem_cons.mpr ⟨Stmt.proper hw.1 hs, Stmt.allProper hw.2 hss⟩

end

end

/-- Every program that was parsed has its tokens where they belong. -/
theorem Parser.parse_proper {T : Token → Prop} {ts : List Token} {ss : List Stmt}
    (hT : ∀ t ∈ ts, T t) (h : (Parser.ofTokens ts).parse.1 = .ok ss) : ∀ s ∈ ss, s.Proper T :=
  Stmt.allProper (Parser.parse_wellFormed h) fun t ht => hT t (Parser.parse_kept h t ht)

end Lox
