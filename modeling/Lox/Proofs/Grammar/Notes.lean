import Lox.Proofs.Grammar.CompleteStatement
import Lox.Proofs.Grammar.Phrase

/-!
Every phrase is read, and what is noted while it is read are its places: the flaws come one by one
from the assignments, the parameters and the arguments that have them.
-/

namespace Lox
open Parse

namespace Reading

/-! ### Bare names -/

/-- What `P` reads is a variable exactly if it is read from a bare name. -/
def Bare (P : Reading Expr) : Prop :=
  ∀ ts e fl, P ts e fl → ((∃ x, e = .variable x) ↔ isBareName ts = true)

theorem isBareName_cons {t : Token} (h : t.kind ≠ .identifier) (ts : List Token) :
    isBareName (t :: ts) = false := by
  cases ts with
  | nil => exact beq_eq_false_iff_ne.mpr h
  | cons u us => rfl

theorem isBareName_append {t : Token} (h : t.kind ≠ .identifier) (us vs : List Token) :
    isBareName (us ++ t :: vs) = false := by
  match us with
  | [] => exact isBareName_cons h vs
  | [u] => rfl
  | u :: u' :: us => rfl

/-- What is no variable is not read from a bare name. -/
theorem bare_of_neither {ts : List Token} {e : Expr} (he : ∀ x, e ≠ .variable x)
    (hts : isBareName ts = false) : (∃ x, e = .variable x) ↔ isBareName ts = true := by
  rw [hts]
  exact iff_of_false (not_exists.mpr he) Bool.false_ne_true

theorem chained_bare {ops : Kind → Bool} {node : Expr → Token → Expr → Expr} {P : Reading Expr}
    (hP : Bare P) (hops : ops .identifier = false) (hnode : ∀ l op r x, node l op r ≠ .variable x) :
    Bare (Chained ops node P) := by
  intro ts e fl h
  cases h with
  | one h => exact hP _ _ _ h
  | @more us _ _ vs _ _ op _ hop _ =>
    have hkind : op.kind ≠ .identifier := by
      intro hk
      rw [hk, hops] at hop
      cases hop
    exact bare_of_neither (hnode _ _ _) (isBareName_append hkind us vs)

theorem unary_bare (E O : Reading Expr) : Bare (Unary E O) := by
  intro ts e fl h
  cases h with
  | operator op hop _ =>
    have hkind : op.kind ≠ .identifier := by
      intro hk
      rw [hk] at hop
      cases hop
    exact bare_of_neither (by simp) (isBareName_cons hkind _)
  | call h =>
    cases h with
    | call l r _ hl _ _ => exact bare_of_neither (by simp) (isBareName_append (by simp [hl]) _ _)
    | primary h =>
      cases h with
      | literal t ht =>
        have hkind : t.kind ≠ .identifier := by
          intro hk
          simp [Token.literal?, hk] at ht
        exact bare_of_neither (by simp) (isBareName_cons hkind _)
      | name t ht => exact iff_of_true ⟨t, rfl⟩ (beq_iff_eq.mpr ht)
      | group l r hl _ _ => exact bare_of_neither (by simp) (isBareName_cons (by simp [hl]) _)

theorem disjunction_bare (E O : Reading Expr) : Bare (Disjunction E O) := by
  have hbinary (l : Expr) (op : Token) (r : Expr) (x : Token) :
      Expr.binary l op r ≠ .variable x := by simp
  have hlogical (l : Expr) (op : Token) (r : Expr) (x : Token) :
      Expr.logical l op r ≠ .variable x := by simp
  have factor : Bare (Factor E O) := chained_bare (unary_bare E O) rfl hbinary
  have term : Bare (Term E O) := chained_bare factor rfl hbinary
  have comparison : Bare (Comparison E O) := chained_bare term rfl hbinary
  have equality : Bare (Equality E O) := chained_bare comparison rfl hbinary
  have conjunction : Bare (Conjunction E O) := chained_bare equality rfl hlogical
  exact chained_bare conjunction rfl hlogical

end Reading

/-! ### What is noted while a phrase is read -/

open Reading

/-- What the operands of a level are joined to. -/
def Tier.Read (E O : Reading Expr) : Tier → Reading Expr
  | .factor => Factor E O
  | .term => Term E O
  | .comparison => Comparison E O
  | .equality => Equality E O
  | .conjunction => Conjunction E O
  | .disjunction => Disjunction E O

/-- `P` reads some tokens and notes these flaws. -/
def Notes {α : Type} (P : Reading α) (ts : List Token) (ps : List Problem) : Prop :=
  ∃ x fl, P ts x fl ∧ fl.toList = ps

/-- `P` reads `k` items and notes these flaws. -/
def NotesItems {α : Type} (P : Reading (List α)) (ts : List Token) (ps : List Problem) (k : Nat) :
    Prop := ∃ xs fl, P ts xs fl ∧ fl.toList = ps ∧ xs.length = k

/-- Some tokens are read as a phrase of a category, and these flaws are noted. -/
def Category.Notes (n : Nat) (ts : List Token) (ps : List Problem) (k : Nat) : Category → Prop
  | .primary => Lox.Notes (Primary (Expression n)) ts ps
  | .call => Lox.Notes (Called (Expression n)) ts ps
  | .arguments => Lox.Notes (Items maxArguments .tooManyArguments (Expression n)) ts ps
  | .argumentList => NotesItems (Listed maxArguments .tooManyArguments (Expression n)) ts ps k
  | .unary => Lox.Notes (Unary (Expression n) (Operand n)) ts ps
  | .operand => Lox.Notes (Operand n) ts ps
  | .tier t => Lox.Notes (t.Read (Expression n) (Operand n)) ts ps
  | .assignment => Lox.Notes (Assignment (Expression n) (Operand n)) ts ps
  | .expression => Lox.Notes (Expression n) ts ps
  | .optional => Lox.Notes (Optional (Expression n)) ts ps
  | .variable => Lox.Notes (Variable (Expression n)) ts ps
  | .init => Lox.Notes (Init (Expression n)) ts ps
  | .statement t => Lox.Notes (Statement n t) ts ps
  | .parameters => Lox.Notes (Items maxParameters .tooManyParameters Name) ts ps
  | .parameterList => NotesItems (Listed maxParameters .tooManyParameters Name) ts ps k
  | .declaration => Lox.Notes (Declaration n) ts ps
  | .declarations => Lox.Notes (Declarations (Declaration n)) ts ps

theorem Tier.notes_one {n k k' : Nat} {ts : List Token} {ps : List Problem} (t : Tier)
    (h : t.operands.Notes n ts ps k) : (Category.tier t).Notes n ts ps k' := by
  cases t <;> obtain ⟨e, fl, h, hfl⟩ := h <;> exact ⟨e, fl, .one h, hfl⟩

theorem Tier.notes_more {n k k' k'' : Nat} {us vs : List Token} {ps qs : List Problem} {op : Token}
    (t : Tier) (h : (Category.tier t).Notes n us ps k) (hop : t.ops op.kind = true)
    (h' : t.operands.Notes n vs qs k') :
    (Category.tier t).Notes n (us ++ op :: vs) (ps ++ qs) k'' := by
  cases t <;> obtain ⟨l, fl, h, rfl⟩ := h <;> obtain ⟨r, fl', h', rfl⟩ := h' <;>
    exact ⟨_, _, h.more op hop h', Array.toList_append⟩

section
variable {fl fl' : Array Problem} {ps qs : List Problem}

theorem toList_append (h : fl.toList = ps) (h' : fl'.toList = qs) :
    (fl ++ fl').toList = ps ++ qs := by
  rw [Array.toList_append, h, h']

/-- What is noted of an item is that there are too many, if 255 come before it. -/
theorem toList_overflow (flaw : Flaw) (k : Nat) (t : Token) :
    (overflow 255 flaw k t).toList = if 255 ≤ k then [⟨flaw, some t⟩] else [] := by
  rw [overflow]
  split <;> rfl

end

/-- A phrase is read, and what is noted are its places. -/
theorem Phrase.notes {c : Category} {n : Nat} {ts : List Token} (p : Phrase c n ts) :
    c.Notes n ts p.places p.count := by
  induction p with
  | literal t h =>
    obtain ⟨v, hv⟩ : ∃ v, t.literal? = some v := by
      revert h
      cases hk : t.kind <;> simp [Token.literal?, hk, isLiteral]
    exact ⟨_, _, .literal t hv, rfl⟩
  | name t h => exact ⟨_, _, .name t h, rfl⟩
  | group l r hl _ hr ih =>
    obtain ⟨e, fl, h, hfl⟩ := ih
    exact ⟨_, _, .group l r hl h hr, hfl⟩
  | callee _ ih =>
    obtain ⟨e, fl, h, hfl⟩ := ih
    exact ⟨_, _, .primary h, hfl⟩
  | call l r _ hl _ hr ih ih' =>
    obtain ⟨f, fl, h, hfl⟩ := ih
    obtain ⟨args, fl', h', hfl'⟩ := ih'
    exact ⟨_, _, .call l r h hl h' hr, toList_append hfl hfl'⟩
  | noArguments => exact ⟨_, _, .none, rfl⟩
  | someArguments _ ih =>
    obtain ⟨es, fl, h, hfl, -⟩ := ih
    exact ⟨es, fl, .some h, hfl⟩
  | oneArgument _ ih =>
    obtain ⟨e, fl, h, hfl⟩ := ih
    exact ⟨[e], fl, .one h, hfl, rfl⟩
  | moreArguments comma p hc _ ih ih' =>
    obtain ⟨es, fl, h, hfl, hlen⟩ := ih
    obtain ⟨e, fl', h', hfl'⟩ := ih'
    obtain ⟨t, vs, rfl, -⟩ := expression_starts _ _ _ _ h'
    have hover := toList_overflow .tooManyArguments es.length t
    rw [hlen] at hover
    refine ⟨es ++ [e], _, .more comma t h hc h', ?_, ?_⟩
    · rw [hlen]
      exact toList_append (toList_append hfl hover) hfl'
    · rw [List.length_append, hlen]
      rfl
  | prefixed op hop _ ih =>
    obtain ⟨e, fl, h, hfl⟩ := ih
    exact ⟨_, _, .operator op hop h, hfl⟩
  | called _ ih =>
    obtain ⟨e, fl, h, hfl⟩ := ih
    exact ⟨e, fl, .call h, hfl⟩
  | operand _ ih => exact ih
  | tighter t _ ih => exact t.notes_one ih
  | operator t op _ hop _ ih ih' => exact t.notes_more ih hop ih'
  | plain _ ih =>
    obtain ⟨e, fl, h, hfl⟩ := ih
    exact ⟨e, fl, .plain h, hfl⟩
  | @assign _ us _ eq _ heq _ ih ih' =>
    obtain ⟨l, fl, h, hfl⟩ := ih
    obtain ⟨v, fl', h', hfl'⟩ := ih'
    have hbare := disjunction_bare _ _ _ _ _ h
    by_cases hname : isBareName us = true
    · obtain ⟨x, rfl⟩ := hbare.mpr hname
      have hnone : (#[] : Array Problem).toList =
          if isBareName us then [] else [⟨.invalidTarget, some eq⟩] := (if_pos hname).symm
      have hall := toList_append (toList_append hfl hfl') hnone
      rw [Array.append_empty] at hall
      exact ⟨_, _, .assign x eq h heq h', hall⟩
    · have hone : #[(⟨.invalidTarget, some eq⟩ : Problem)].toList =
          if isBareName us then [] else [⟨.invalidTarget, some eq⟩] := (if_neg hname).symm
      have hinvalid : ∀ x, l ≠ .variable x := fun x hx => hname (hbare.mp ⟨x, hx⟩)
      exact ⟨_, _, .invalid eq h hinvalid heq h', toList_append (toList_append hfl hfl') hone⟩
  | expression _ ih => exact ih
  | absent => exact ⟨_, _, .none, rfl⟩
  | present _ ih =>
    obtain ⟨e, fl, h, hfl⟩ := ih
    exact ⟨_, fl, .some h, hfl⟩
  | bare name semi hn hs => exact ⟨_, _, .bare name semi hn hs, rfl⟩
  | initialized name eq semi hn heq _ hs ih =>
    obtain ⟨e, fl, h, hfl⟩ := ih
    exact ⟨_, _, .init name eq semi hn heq h hs, hfl⟩
  | initNone semi hs => exact ⟨_, _, .none semi hs, rfl⟩
  | initVariable k hk _ ih =>
    obtain ⟨s, fl, h, hfl⟩ := ih
    exact ⟨_, _, .var k hk h, hfl⟩
  | initEffect semi _ hs ih =>
    obtain ⟨e, fl, h, hfl⟩ := ih
    exact ⟨_, _, .effect (.mk semi h hs), hfl⟩
  | effect semi _ hs ih =>
    obtain ⟨e, fl, h, hfl⟩ := ih
    exact ⟨_, _, .effect (.mk semi h hs), hfl⟩
  | print k semi hk _ hs ih =>
    obtain ⟨e, fl, h, hfl⟩ := ih
    exact ⟨_, _, .print k hk (.mk semi h hs), hfl⟩
  | ret k semi hk _ hs ih =>
    obtain ⟨e, fl, h, hfl⟩ := ih
    exact ⟨_, _, .ret k hk (.mk semi h hs), hfl⟩
  | block l r hl _ hr ih =>
    obtain ⟨ss, fl, h, hfl⟩ := ih
    exact ⟨_, _, .block l hl (.mk r h hr), hfl⟩
  | loop k l r hk hl _ hr _ ih ih' =>
    obtain ⟨c, fl, h, hfl⟩ := ih
    obtain ⟨s, fl', h', hfl'⟩ := ih'
    exact ⟨_, _, .loop k hk (.mk l r hl h hr h'), toList_append hfl hfl'⟩
  | forLoop k l semi r hk hl _ _ hs _ hr _ ihi ihc ihm ihs =>
    obtain ⟨i, fl, hi, hfl⟩ := ihi
    obtain ⟨c, fl₁, hc, hfl₁⟩ := ihc
    obtain ⟨m, fl₂, hm, hfl₂⟩ := ihm
    obtain ⟨s, fl₃, hbody, hfl₃⟩ := ihs
    have hall := toList_append (toList_append (toList_append hfl hfl₁) hfl₂) hfl₃
    refine ⟨_, _, .forLoop k hk (.mk l semi r hl hi hc hs hm hr hbody), ?_⟩
    rw [← Array.append_assoc, ← Array.append_assoc]
    exact hall
  | branch k l r hk hl _ hr _ ih ih' =>
    obtain ⟨c, fl, h, hfl⟩ := ih
    obtain ⟨s, fl', h', hfl'⟩ := ih'
    exact ⟨_, _, .branch k hk (.lone l r hl h hr h'), toList_append hfl hfl'⟩
  | branchElse k l r els hk hl _ hr _ hels _ ihc ihs ihs' =>
    obtain ⟨c, fl, hc, hfl⟩ := ihc
    obtain ⟨s, fl₁, hs, hfl₁⟩ := ihs
    obtain ⟨s', fl₂, hs', hfl₂⟩ := ihs'
    refine ⟨_, _, .branch k hk (.both l r els hl hc hr hs hels hs'), ?_⟩
    rw [← Array.append_assoc]
    exact toList_append (toList_append hfl hfl₁) hfl₂
  | noParameters => exact ⟨_, _, .none, rfl⟩
  | someParameters _ ih =>
    obtain ⟨xs, fl, h, hfl, -⟩ := ih
    exact ⟨xs, fl, .some h, hfl⟩
  | oneParameter x hx => exact ⟨[x], _, .one (.mk x hx), rfl, rfl⟩
  | moreParameters comma x _ hc hx ih =>
    obtain ⟨xs, fl, h, hfl, hlen⟩ := ih
    have hover := toList_overflow .tooManyParameters xs.length x
    rw [hlen] at hover
    refine ⟨xs ++ [x], _, .more comma x h hc (.mk x hx), ?_, ?_⟩
    · rw [hlen, Array.append_empty]
      exact toList_append hfl hover
    · rw [List.length_append, hlen]
      rfl
  | function k name l r b c hk hn hl _ hr hb _ hc ih ih' =>
    obtain ⟨xs, fl, h, hfl⟩ := ih
    obtain ⟨ss, fl', h', hfl'⟩ := ih'
    have hall := toList_append hfl hfl'
    exact ⟨_, _, .function k hk (.mk name l r b hn hl h hr hb (.mk c h' hc)), hall⟩
  | varDeclaration k hk _ ih =>
    obtain ⟨s, fl, h, hfl⟩ := ih
    exact ⟨_, _, .var k hk h, hfl⟩
  | statement _ ih =>
    obtain ⟨s, fl, h, hfl⟩ := ih
    exact ⟨_, _, .statement h, hfl⟩
  | nil => exact ⟨_, _, .nil, rfl⟩
  | cons _ _ ih ih' =>
    obtain ⟨s, fl, h, hfl⟩ := ih
    obtain ⟨ss, fl', h', hfl'⟩ := ih'
    exact ⟨_, _, .cons h h', toList_append hfl hfl'⟩

/-- Whatever can be derived is read, whichever tokens of the right kinds are there. -/
theorem Derives.read {n : Nat} {w : List Kind} {ts : List Token}
    (h : Derives .nearest .declarations n w) (hts : kinds ts = w) :
    ∃ ss fl, Declarations (Declaration n) ts ss fl := by
  obtain ⟨p⟩ := h.nonempty_phrase hts
  obtain ⟨ss, fl, h, -⟩ := p.notes
  exact ⟨ss, fl, h⟩

end Lox
