import Lox.Proofs.Grammar.Accept
import Mathlib

/-!
What was read before a fatal flaw is the beginning of a program. Each parser goes with a language:
what it takes when it succeeds is a word of it, and what it took when it stops can be gone on with
to a word of it. The languages of the parts of a parser, put together, are within the language of
the category that it is for.
-/

namespace Lox
open Computability

/-! ### Languages of kinds -/

/-- A token of kind `k` by itself. -/
def mark (k : Kind) : Language Kind := {[k]}

/-- The tokens whose kind satisfies `p`, each by itself. -/
def single (p : Kind → Bool) : Language Kind := {w | ∃ k, p k = true ∧ w = [k]}

theorem mark_le_single {p : Kind → Bool} {k : Kind} (h : p k = true) : mark k ≤ single p := by
  rintro _ rfl
  exact ⟨k, h, rfl⟩

/-- One phrase or more, with commas between them. -/
def listOf (L : Language Kind) : Language Kind := L * (mark .comma * L)∗

/-- The phrases of a category, whatever levels their derivations open. -/
def Category.words (c : Category) : Language Kind := {w | ∃ n, Derives .any c n w}

/-- All statements, whether or not they end in an `if` without an `else`. -/
def statements : Language Kind := {w | ∃ t, w ∈ (Category.statement t).words}

/-! ### The rules of the grammar -/

namespace Category
open Parse

theorem literal_le : single isLiteral ≤ primary.words := by
  rintro _ ⟨k, hk, rfl⟩
  exact ⟨0, .literal k hk⟩

theorem name_le : mark .identifier ≤ primary.words := by
  rintro _ rfl
  exact ⟨0, .name⟩

theorem group_le : mark .leftParen * (expression.words * mark .rightParen) ≤ primary.words := by
  rintro _ ⟨_, rfl, _, ⟨w, ⟨n, hw⟩, _, rfl, rfl⟩, rfl⟩
  exact ⟨n, .group hw⟩

theorem arguments_le : 1 + listOf expression.words ≤ arguments.words := by
  have hone : expression.words ≤ argumentList.words := fun _ ⟨n, hw⟩ => ⟨n, .oneArgument hw⟩
  have hmore : argumentList.words * (mark .comma * expression.words) ≤ argumentList.words := by
    rintro _ ⟨u, hu, _, ⟨_, rfl, v, hv, rfl⟩, rfl⟩
    obtain ⟨n, hu, hv⟩ := Derives.join hu hv
    exact ⟨n, .moreArguments hu hv⟩
  refine add_le ?_ fun w hw => ?_
  · rintro _ rfl
    exact ⟨0, .noArguments⟩
  · obtain ⟨n, hw⟩ := mul_kstar_le hone hmore hw
    exact ⟨n, .someArguments hw⟩

theorem calls_le : primary.words *
    (mark .leftParen * (arguments.words * mark .rightParen))∗ ≤ call.words := by
  refine mul_kstar_le (fun _ ⟨n, hw⟩ => ⟨n, .callee hw⟩) ?_
  rintro _ ⟨u, hu, _, ⟨_, rfl, _, ⟨v, hv, _, rfl, rfl⟩, rfl⟩, rfl⟩
  obtain ⟨n, hu, hv⟩ := Derives.join hu hv
  exact ⟨n, .call hu hv⟩

theorem prefixed_le : single isPrefixOp * operand.words ≤ unary.words := by
  rintro _ ⟨_, ⟨k, hk, rfl⟩, w, ⟨n, hw⟩, rfl⟩
  exact ⟨n, .prefixed k hk hw⟩

theorem tier_le (t : Tier) :
    t.operands.words * (single t.ops * t.operands.words)∗ ≤ (tier t).words := by
  refine mul_kstar_le (fun _ ⟨n, hw⟩ => ⟨n, .tighter t hw⟩) ?_
  rintro _ ⟨u, hu, _, ⟨_, ⟨k, hk, rfl⟩, v, hv, rfl⟩, rfl⟩
  obtain ⟨n, hu, hv⟩ := Derives.join hu hv
  exact ⟨n, .operator t k hu hk hv⟩

theorem assignment_le : (tier .disjunction).words * (1 + mark .equal * expression.words) ≤
    assignment.words := by
  rintro _ ⟨u, hu, _, rfl | ⟨_, rfl, v, hv, rfl⟩, rfl⟩
  · obtain ⟨n, hu⟩ := hu
    exact ⟨n, by simpa using Derives.plain hu⟩
  · obtain ⟨n, hu, hv⟩ := Derives.join hu hv
    exact ⟨n, .assign hu hv⟩

theorem expression_le : assignment.words ≤ expression.words :=
  fun _ ⟨n, hw⟩ => ⟨n + 1, .expression hw⟩

theorem operand_le : unary.words ≤ operand.words := fun _ ⟨n, hw⟩ => ⟨n + 1, .operand hw⟩

theorem optional_le : 1 + expression.words ≤ optional.words := by
  refine add_le ?_ fun _ ⟨n, hw⟩ => ⟨n, .present hw⟩
  rintro _ rfl
  exact ⟨0, .absent⟩

theorem variable_le : mark .identifier *
    (mark .semicolon + mark .equal * (expression.words * mark .semicolon)) ≤ variable.words := by
  rintro _ ⟨_, rfl, _, rfl | ⟨_, rfl, _, ⟨w, ⟨n, hw⟩, _, rfl, rfl⟩, rfl⟩, rfl⟩
  · exact ⟨0, .bare⟩
  · exact ⟨n, .initialized hw⟩

theorem init_le : mark .semicolon +
    (mark .kwVar * variable.words + expression.words * mark .semicolon) ≤ init.words := by
  rintro _ (rfl | ⟨_, rfl, w, ⟨n, hw⟩, rfl⟩ | ⟨w, ⟨n, hw⟩, _, rfl, rfl⟩)
  · exact ⟨0, .initNone⟩
  · exact ⟨n, .initVariable hw⟩
  · exact ⟨n, .initEffect hw⟩

theorem effect_le : expression.words * mark .semicolon ≤ statements := by
  rintro _ ⟨w, ⟨n, hw⟩, _, rfl, rfl⟩
  exact ⟨.closed, n + 1, .effect hw⟩

theorem print_le : mark .kwPrint * (expression.words * mark .semicolon) ≤ statements := by
  rintro _ ⟨_, rfl, _, ⟨w, ⟨n, hw⟩, _, rfl, rfl⟩, rfl⟩
  exact ⟨.closed, n + 1, .print hw⟩

theorem ret_le : mark .kwReturn * (optional.words * mark .semicolon) ≤ statements := by
  rintro _ ⟨_, rfl, _, ⟨w, ⟨n, hw⟩, _, rfl, rfl⟩, rfl⟩
  exact ⟨.closed, n + 1, .ret hw⟩

theorem block_le : mark .leftBrace * (declarations.words * mark .rightBrace) ≤ statements := by
  rintro _ ⟨_, rfl, _, ⟨w, ⟨n, hw⟩, _, rfl, rfl⟩, rfl⟩
  exact ⟨.closed, n + 1, .block hw⟩

theorem loop_le : mark .kwWhile * (mark .leftParen * (expression.words *
    (mark .rightParen * statements))) ≤ statements := by
  rintro _ ⟨_, rfl, _, ⟨_, rfl, _, ⟨c, hc, _, ⟨_, rfl, s, ⟨t, hs⟩, rfl⟩, rfl⟩, rfl⟩, rfl⟩
  obtain ⟨n, hc, hs⟩ := Derives.join hc hs
  exact ⟨t, n + 1, .loop hc hs⟩

theorem forLoop_le : mark .kwFor * (mark .leftParen * (init.words * (optional.words *
    (mark .semicolon * (optional.words * (mark .rightParen * statements)))))) ≤ statements := by
  rintro _ ⟨_, rfl, _, ⟨_, rfl, _, ⟨i, hi, _, ⟨c, hc, _, ⟨_, rfl, _, ⟨m, hm, _, ⟨_, rfl, s,
    ⟨t, hs⟩, rfl⟩, rfl⟩, rfl⟩, rfl⟩, rfl⟩, rfl⟩, rfl⟩
  obtain ⟨k, hi, hc⟩ := Derives.join hi hc
  obtain ⟨l, hm, hs⟩ := Derives.join hm hs
  have hk := Nat.le_max_left k l
  have hl := Nat.le_max_right k l
  exact ⟨t, _, .forLoop (hi.mono hk) (hc.mono hk) (hm.mono hl) (hs.mono hl)⟩

theorem branch_le : mark .kwIf * (mark .leftParen * (expression.words * (mark .rightParen *
    (statements * (1 + mark .kwElse * statements))))) ≤ statements := by
  rintro _ ⟨_, rfl, _, ⟨_, rfl, _, ⟨c, hc, _, ⟨_, rfl, _, ⟨s, ⟨t, hs⟩, _,
    rfl | ⟨_, rfl, s', ⟨t', hs'⟩, rfl⟩, rfl⟩, rfl⟩, rfl⟩, rfl⟩, rfl⟩
  · obtain ⟨n, hc, hs⟩ := Derives.join hc hs
    exact ⟨.dangling, n + 1, by simpa using Derives.branch hc hs⟩
  · obtain ⟨k, hc, hs⟩ := Derives.join hc hs
    obtain ⟨l, hs'⟩ := hs'
    have hk := Nat.le_max_left k l
    exact ⟨t', _, .branchElse (hc.mono hk) (hs.mono hk) nofun (hs'.mono (Nat.le_max_right k l))⟩

theorem parameters_le : 1 + listOf (mark .identifier) ≤ parameters.words := by
  have hone : mark .identifier ≤ parameterList.words := by
    rintro _ rfl
    exact ⟨0, .oneParameter⟩
  have hmore : parameterList.words * (mark .comma * mark .identifier) ≤ parameterList.words := by
    rintro _ ⟨u, ⟨n, hu⟩, _, ⟨_, rfl, _, rfl, rfl⟩, rfl⟩
    exact ⟨n, .moreParameters hu⟩
  refine add_le ?_ fun w hw => ?_
  · rintro _ rfl
    exact ⟨0, .noParameters⟩
  · obtain ⟨n, hw⟩ := mul_kstar_le hone hmore hw
    exact ⟨n, .someParameters hw⟩

theorem function_le : mark .kwFun * (mark .identifier * (mark .leftParen * (parameters.words *
    (mark .rightParen * (mark .leftBrace * (declarations.words * mark .rightBrace)))))) ≤
    declaration.words := by
  rintro _ ⟨_, rfl, _, ⟨_, rfl, _, ⟨_, rfl, _, ⟨p, hp, _, ⟨_, rfl, _, ⟨_, rfl, _, ⟨b, hb, _, rfl,
    rfl⟩, rfl⟩, rfl⟩, rfl⟩, rfl⟩, rfl⟩, rfl⟩
  obtain ⟨n, hp, hb⟩ := Derives.join hp hb
  exact ⟨n + 1, .function hp hb⟩

theorem varDeclaration_le : mark .kwVar * variable.words ≤ declaration.words := by
  rintro _ ⟨_, rfl, w, ⟨n, hw⟩, rfl⟩
  exact ⟨n + 1, .varDeclaration hw⟩

theorem statement_le : statements ≤ declaration.words := by
  rintro w ⟨t, n, hw⟩
  exact ⟨n + 1, .statement hw⟩

theorem declarations_le : declaration.words∗ ≤ declarations.words := by
  refine kstar_le_of_mul_le_right ?_ ?_
  · rintro _ rfl
    exact ⟨0, .nil⟩
  · rintro _ ⟨u, hu, v, hv, rfl⟩
    obtain ⟨n, hu, hv⟩ := Derives.join hu hv
    exact ⟨n, .cons hu hv⟩

end Category

/-! ### Parsers and their languages -/

namespace Parse
open Category Step

variable {α β : Type}

/-- What `p` takes is a word of `L`. Where it stops, it complains of the next token. What it took up
to there can be gone on with to a word of `L`, unless it only ran out of levels. -/
structure Viable (p : Parse α) (L : Language Kind) : Prop where
  inhabited : ∃ w, w ∈ L
  ok {s x s'} : p s = .ok x s' → ∃ us, s.rest = us ++ s'.rest ∧ kinds us ∈ L
  error {s e s'} : p s = .error e s' → e.spot = s'.rest.head? ∧
    ∃ us, s.rest = us ++ s'.rest ∧ (e.flaw ≠ .tooMuchNesting → ∃ v, kinds us ++ v ∈ L)

namespace Viable

variable {L M : Language Kind}

/-! #### Steps -/

theorem mono {p : Parse α} (h : Viable p L) (hle : L ≤ M) : Viable p M where
  inhabited := h.inhabited.imp fun _ hw => hle hw
  ok hp := (h.ok hp).imp fun _ => And.imp_right (hle ·)
  error hp := (h.error hp).imp_right (Exists.imp fun _ => And.imp_right fun hv hflaw =>
    (hv hflaw).imp fun _ hv => hle hv)

theorem pure (x : α) : Viable (Pure.pure x) 1 where
  inhabited := ⟨[], rfl⟩
  ok h := ⟨[], by rw [(pure_eq_ok.mp h).2]; rfl, rfl⟩
  error h := by cases h

theorem bind [Inhabited α] {p : Parse α} {f : α → Parse β} (hp : Viable p L)
    (hf : ∀ x, Viable (f x) M) : Viable (p >>= f) (L * M) where
  inhabited := by
    obtain ⟨u, hu⟩ := hp.inhabited
    obtain ⟨v, hv⟩ := (hf default).inhabited
    exact ⟨_, Language.append_mem_mul hu hv⟩
  ok h := by
    obtain ⟨x, s₁, hx, h⟩ := bind_eq_ok.mp h
    obtain ⟨us, hus, hL⟩ := hp.ok hx
    obtain ⟨vs, hvs, hM⟩ := (hf x).ok h
    refine ⟨us ++ vs, by rw [hus, hvs, List.append_assoc], ?_⟩
    rw [kinds_append]
    exact Language.append_mem_mul hL hM
  error h := by
    rcases bind_eq_error.mp h with h | ⟨x, s₁, hx, h⟩
    · obtain ⟨hspot, us, hus, hL⟩ := hp.error h
      refine ⟨hspot, us, hus, fun hflaw => ?_⟩
      obtain ⟨v, hv⟩ := hL hflaw
      obtain ⟨w, hw⟩ := (hf default).inhabited
      exact ⟨v ++ w, by rw [← List.append_assoc]; exact Language.append_mem_mul hv hw⟩
    · obtain ⟨us, hus, hL⟩ := hp.ok hx
      obtain ⟨hspot, vs, hvs, hM⟩ := (hf x).error h
      refine ⟨hspot, us ++ vs, by rw [hus, hvs, List.append_assoc], fun hflaw => ?_⟩
      obtain ⟨w, hw⟩ := hM hflaw
      exact ⟨w, by rw [kinds_append, List.append_assoc]; exact Language.append_mem_mul hL hw⟩

theorem bind_pure [Inhabited α] {p : Parse α} (hp : Viable p L) (f : α → β) :
    Viable (p >>= fun x => Pure.pure (f x)) L :=
  mul_one L ▸ hp.bind fun _ => pure _

theorem map [Inhabited α] {p : Parse α} (f : α → β) (hp : Viable p L) : Viable (f <$> p) L := by
  rw [map_eq_pure_bind]
  exact hp.bind_pure f

/-- A step that takes nothing adds nothing to what comes behind it. -/
theorem bind_one [Inhabited α] {p : Parse α} {f : α → Parse β} (hp : Viable p 1)
    (hf : ∀ x, Viable (f x) L) : Viable (p >>= f) L :=
  one_mul L ▸ hp.bind hf

theorem ite {c : Prop} [Decidable c] {p q : Parse α} (hp : Viable p L) (hq : Viable q L) :
    Viable (if c then p else q) L := by
  split
  · exact hp
  · exact hq

theorem fail (flaw : Flaw) (hL : ∃ w, w ∈ L) : Viable (Parse.fail flaw : Parse α) L where
  inhabited := hL
  ok h := by cases h
  error h := by
    cases h
    exact ⟨rfl, [], rfl, fun _ => hL⟩

theorem reportAt (flaw : Flaw) (spot : Option Token) : Viable (Parse.reportAt flaw spot) 1 where
  inhabited := ⟨[], rfl⟩
  ok h := by
    cases h
    exact ⟨[], rfl, rfl⟩
  error h := by cases h

theorem report (flaw : Flaw) : Viable (Parse.report flaw) 1 where
  inhabited := ⟨[], rfl⟩
  ok h := (reportAt flaw _).ok h
  error h := by cases h

theorem nextIs (k : Kind) : Viable (Parse.nextIs k) 1 where
  inhabited := ⟨[], rfl⟩
  ok h := ⟨[], by rw [nextIs_ok h]; rfl, rfl⟩
  error {s _ _} h := by
    obtain ⟨ts, r⟩ := s
    cases ts <;> cases h

theorem atEnd : Viable Parse.atEnd 1 where
  inhabited := ⟨[], rfl⟩
  ok h := ⟨[], by rw [(atEnd_ok h).1]; rfl, rfl⟩
  error h := by cases h

theorem mark_append {t : Token} {us : List Token} {w : List Kind} (h : kinds us ++ w ∈ M)
    (hle : mark t.kind * M ≤ L) : kinds (t :: us) ++ w ∈ L :=
  hle (Language.append_mem_mul (a := [t.kind]) rfl h)

/-- Whether the next token is taken decides how it goes on. -/
theorem takeIf_bind {p : Kind → Bool} {f : Option Token → Parse β} (hnone : Viable (f none) L)
    (hsome : ∀ t, p t.kind = true → ∃ M, Viable (f (some t)) M ∧ mark t.kind * M ≤ L) :
    Viable (takeIf p >>= f) L where
  inhabited := hnone.inhabited
  ok {s _ _} h := by
    rcases takeIf_bind_eq p f s with ⟨t, ts, hs, ht, heq⟩ | ⟨-, heq⟩ <;> rw [heq] at h
    · obtain ⟨M, hM, hle⟩ := hsome t ht
      obtain ⟨us, hus, hw⟩ := hM.ok h
      rw [← List.append_nil (kinds us)] at hw
      exact ⟨t :: us, hs.trans (congrArg (t :: ·) hus), by simpa using mark_append hw hle⟩
    · exact hnone.ok h
  error {s _ _} h := by
    rcases takeIf_bind_eq p f s with ⟨t, ts, hs, ht, heq⟩ | ⟨-, heq⟩ <;> rw [heq] at h
    · obtain ⟨M, hM, hle⟩ := hsome t ht
      obtain ⟨hspot, us, hus, hw⟩ := hM.error h
      refine ⟨hspot, t :: us, hs.trans (congrArg (t :: ·) hus), fun hflaw => ?_⟩
      exact (hw hflaw).imp fun _ hv => mark_append hv hle
    · exact hnone.error h

theorem skipIf_bind {k : Kind} {f : Bool → Parse β} (hfalse : Viable (f false) L)
    (htrue : Viable (f true) M) : Viable (skipIf k >>= f) (L + mark k * M) := by
  rw [skipIf, bind_assoc]
  simp only [pure_bind]
  refine takeIf_bind (hfalse.mono le_self_add) fun t ht => ⟨M, htrue, ?_⟩
  rw [beq_iff_eq.mp ht]
  exact le_add_self

theorem expect (slot : Slot) : Viable (Parse.expect slot) (mark slot.kind) := by
  refine takeIf_bind (fail _ ⟨_, rfl⟩) fun t ht => ⟨1, pure t, ?_⟩
  rw [beq_iff_eq.mp ht, mul_one]

theorem expect_pure (slot : Slot) (x : β) :
    Viable (Parse.expect slot >>= fun _ => Pure.pure x) (mark slot.kind) :=
  (expect slot).bind_pure fun _ => x

theorem optionalUntil [Inhabited α] (stop : Kind) {part : Parse α} (h : Viable part L) :
    Viable (Parse.optionalUntil stop part) (1 + L) :=
  (nextIs stop).bind_one fun _ =>
    ite ((pure _).mono le_self_add) ((h.bind_pure _).mono le_add_self)

theorem moreItems [Inhabited α] {limit : Nat} {flaw : Flaw} {item : Parse α} (h : Viable item L) :
    ∀ n acc, Viable (Parse.moreItems limit flaw item n acc) (mark .comma * L)∗
  | 0, acc => (pure acc).mono one_le_kstar
  | n + 1, acc => by
    have hover : Viable (if limit ≤ acc.size then Parse.report flaw else Pure.pure ()) 1 :=
      ite (report flaw) (pure ())
    rw [moreItems_succ]
    refine (skipIf_bind (pure acc) (hover.bind_one fun _ => h.bind fun _ => moreItems h n _)).mono
      (add_le one_le_kstar ?_)
    rw [← mul_assoc]
    exact mul_kstar_le_kstar

theorem items [Inhabited α] {limit : Nat} {flaw : Flaw} {item : Parse α} (h : Viable item L)
    (size : Nat) : Viable (Parse.items size limit flaw item) (1 + listOf L) :=
  (nextIs _).bind_one fun _ => ite ((pure _).mono le_self_add)
    ((h.bind fun _ => (moreItems h size _).bind_pure _).mono le_add_self)

/-! #### Expressions -/

section
variable {size : Nat} {e o : Parse Expr}

theorem primary (he : Viable e Category.expression.words) :
    Viable (Parse.primary e) Category.primary.words := by
  refine takeIf_bind (fail _ ⟨_, name_le rfl⟩) fun t ht => ?_
  have leaf (x : Expr) (h : mark t.kind ≤ Category.primary.words) :
      ∃ M, Viable (Pure.pure x : Parse Expr) M ∧ mark t.kind * M ≤ Category.primary.words :=
    ⟨1, pure _, by rw [mul_one]; exact h⟩
  cases hk : t.kind with
  | kwTrue | kwFalse | kwNil | number | string =>
    rw [hk] at leaf
    simp only [hk]
    exact leaf _ ((mark_le_single rfl).trans literal_le)
  | identifier =>
    rw [hk] at leaf
    simp only [hk]
    exact leaf _ name_le
  | leftParen =>
    simp only [hk]
    exact ⟨_, he.bind fun _ => expect_pure _ _, group_le⟩
  | _ => simp [startsPrimary, hk] at ht

theorem callsFrom (he : Viable e Category.expression.words) : ∀ n f,
    Viable (Parse.callsFrom size e n f)
      (mark .leftParen * (Category.arguments.words * mark .rightParen))∗
  | 0, f => (pure f).mono one_le_kstar
  | n + 1, f => by
    refine (skipIf_bind (pure f) (((items he size).mono arguments_le).bind fun _ =>
      (expect _).bind fun _ => callsFrom he n _)).mono (add_le one_le_kstar ?_)
    rw [← mul_assoc, ← mul_assoc, mul_assoc (mark _)]
    exact mul_kstar_le_kstar

theorem callLevel (he : Viable e Category.expression.words) :
    Viable (Parse.callLevel size e) Category.call.words :=
  ((primary he).bind fun _ => callsFrom he _ _).mono calls_le

theorem unaryLevel (he : Viable e Category.expression.words)
    (ho : Viable o Category.operand.words) :
    Viable (Parse.unaryLevel size e o) Category.unary.words := by
  refine takeIf_bind ((callLevel he).mono ?_) fun t ht => ⟨_, ho.bind_pure _, ?_⟩
  · rintro w ⟨n, hw⟩
    exact ⟨n, .called hw⟩
  · exact (mul_le_mul_left (mark_le_single ht) _).trans prefixed_le

theorem chainFrom {ops : Kind → Bool} {node : Expr → Token → Expr → Expr} (ho : Viable o L) :
    ∀ n l, Viable (Parse.chainFrom ops node o n l) (single ops * L)∗
  | 0, l => (pure l).mono one_le_kstar
  | n + 1, l => by
    refine takeIf_bind ((pure l).mono one_le_kstar) fun t ht =>
      ⟨_, ho.bind fun _ => chainFrom ho n _, ?_⟩
    rw [← mul_assoc]
    exact (mul_le_mul_left (mul_le_mul_left (mark_le_single ht) _) _).trans mul_kstar_le_kstar

theorem chain (t : Tier) {node : Expr → Token → Expr → Expr} (ho : Viable o t.operands.words) :
    Viable (Parse.chain size t.ops node o) (Category.tier t).words :=
  (ho.bind fun _ => chainFrom ho _ _).mono (tier_le t)

theorem disjunction (he : Viable e Category.expression.words)
    (ho : Viable o Category.operand.words) :
    Viable (Parse.disjunction size e o) (Category.tier .disjunction).words :=
  have factor : Viable (factor size e o) (Category.tier .factor).words :=
    chain .factor (unaryLevel he ho)
  have term : Viable (term size e o) (Category.tier .term).words := chain .term factor
  have comparison : Viable (comparison size e o) (Category.tier .comparison).words :=
    chain .comparison term
  have equality : Viable (equality size e o) (Category.tier .equality).words :=
    chain .equality comparison
  have conjunction : Viable (conjunction size e o) (Category.tier .conjunction).words :=
    chain .conjunction equality
  chain .disjunction conjunction

theorem assignment (he : Viable e Category.expression.words)
    (ho : Viable o Category.operand.words) :
    Viable (Parse.assignment size e o) Category.assignment.words := by
  refine ((disjunction he ho).bind fun l => takeIf_bind ((pure l).mono le_self_add)
    fun t ht => ?_).mono assignment_le
  rw [beq_iff_eq.mp ht]
  refine ⟨Category.expression.words * 1, he.bind fun v => ?_, by rw [mul_one]; exact le_add_self⟩
  cases l with
  | «variable» name => exact pure _
  | _ => exact (reportAt _ _).bind_pure _

end

theorem expression_operand (size n : Nat) :
    Viable (expression size n) Category.expression.words ∧
      Viable (operand size n) Category.operand.words := by
  induction n with
  | zero =>
    have hname : Derives .any .unary 0 [.identifier] := .called (.callee .name)
    have hlevels : Derives .any (.tier .disjunction) 0 [.identifier] :=
      .tighter _ (.tighter _ (.tighter _ (.tighter _ (.tighter _ (.tighter _ hname)))))
    exact ⟨fail _ ⟨_, 1, .expression (.plain hlevels)⟩, fail _ ⟨_, 1, .operand hname⟩⟩
  | succ n ih =>
    exact ⟨(assignment ih.1 ih.2).mono expression_le, (unaryLevel ih.1 ih.2).mono operand_le⟩

/-! #### Statements -/

section
variable {size : Nat} {e : Parse Expr} {d st : Parse Stmt}

theorem declarations (hd : Viable d Category.declaration.words) : ∀ n acc,
    Viable (Parse.declarations d n acc) Category.declaration.words∗
  | 0, _ => (pure _).mono one_le_kstar
  | n + 1, _ => (nextIs _).bind_one fun _ => atEnd.bind_one fun _ =>
    ite ((pure _).mono one_le_kstar)
      ((hd.bind fun _ => declarations hd n _).mono mul_kstar_le_kstar)

theorem blockBody (hd : Viable d Category.declaration.words) :
    Viable (Parse.blockBody size d) (Category.declarations.words * mark .rightBrace) :=
  ((declarations hd _ _).mono declarations_le).bind fun _ => expect_pure _ _

theorem functionRest (hd : Viable d Category.declaration.words) :
    Viable (Parse.functionRest size d) (mark .identifier * (mark .leftParen *
      (Category.parameters.words * (mark .rightParen * (mark .leftBrace *
        (Category.declarations.words * mark .rightBrace)))))) :=
  (expect _).bind fun _ => (expect _).bind fun _ =>
    ((items (expect .parameterName) size).mono parameters_le).bind fun _ => (expect _).bind fun _ =>
      (expect _).bind fun _ => (blockBody hd).bind_pure _

theorem variableRest (he : Viable e Category.expression.words) :
    Viable (Parse.variableRest e) Category.variable.words :=
  ((expect .variableName).bind fun _ => skipIf_bind
    ((pure _).bind_one fun _ => expect_pure _ _)
    ((he.map _).bind fun _ => expect_pure _ _)).mono variable_le

theorem expressionStatement (he : Viable e Category.expression.words) :
    Viable (Parse.expressionStatement e) (Category.expression.words * mark .semicolon) :=
  he.bind fun _ => expect_pure _ _

theorem ifRest (he : Viable e Category.expression.words) (hst : Viable st statements) :
    Viable (Parse.ifRest e st) (mark .leftParen * (Category.expression.words * (mark .rightParen *
      (statements * (1 + mark .kwElse * statements))))) :=
  (expect _).bind fun _ => he.bind fun _ => (expect _).bind fun _ => hst.bind fun _ =>
    skipIf_bind ((pure _).bind_pure _) ((hst.map _).bind_pure _)

theorem whileRest (he : Viable e Category.expression.words) (hst : Viable st statements) :
    Viable (Parse.whileRest e st) (mark .leftParen * (Category.expression.words *
      (mark .rightParen * statements))) :=
  (expect _).bind fun _ => he.bind fun _ => (expect _).bind fun _ => hst.bind_pure _

theorem forInit (he : Viable e Category.expression.words) :
    Viable (Parse.forInit e) Category.init.words := by
  have hle : Category.expression.words * mark .semicolon + mark .kwVar * Category.variable.words +
      mark .semicolon * 1 ≤ Category.init.words := by
    rw [mul_one, add_comm, add_comm (Category.expression.words * _)]
    exact init_le
  rw [Parse.forInit]
  refine (skipIf_bind ?_ (pure none)).mono hle
  exact skipIf_bind ((expressionStatement he).bind_pure _) ((variableRest he).bind_pure _)

theorem forRest (he : Viable e Category.expression.words) (hst : Viable st statements) :
    Viable (Parse.forRest e st) (mark .leftParen * (Category.init.words *
      (Category.optional.words * (mark .semicolon * (Category.optional.words *
        (mark .rightParen * statements)))))) :=
  (expect _).bind fun _ => (forInit he).bind fun _ =>
    ((optionalUntil _ he).mono optional_le).bind fun _ => (expect _).bind fun _ =>
      ((optionalUntil _ he).mono optional_le).bind fun _ => (expect _).bind fun _ =>
        hst.bind_pure _

theorem statementLevel (he : Viable e Category.expression.words)
    (hd : Viable d Category.declaration.words) (hst : Viable st statements) :
    Viable (Parse.statementLevel size e d st) statements := by
  refine takeIf_bind ((expressionStatement he).mono effect_le) fun t ht => ?_
  cases hk : t.kind with
  | kwIf =>
    simp only [hk]
    exact ⟨_, ifRest he hst, branch_le⟩
  | kwPrint =>
    simp only [hk]
    exact ⟨_, he.bind fun _ => expect_pure _ _, print_le⟩
  | kwReturn =>
    simp only [hk]
    exact ⟨_, ((optionalUntil _ he).mono optional_le).bind fun _ => expect_pure _ _, ret_le⟩
  | kwWhile =>
    simp only [hk]
    exact ⟨_, whileRest he hst, loop_le⟩
  | kwFor =>
    simp only [hk]
    exact ⟨_, forRest he hst, forLoop_le⟩
  | leftBrace =>
    simp only [hk]
    exact ⟨_, (blockBody hd).bind_pure _, block_le⟩
  | _ => simp [opensStatement, hk] at ht

theorem declarationLevel (he : Viable e Category.expression.words)
    (hd : Viable d Category.declaration.words) (hst : Viable st statements) :
    Viable (Parse.declarationLevel size e d st) Category.declaration.words := by
  refine takeIf_bind (hst.mono statement_le) fun t ht => ?_
  cases hk : t.kind with
  | kwFun =>
    simp only [hk]
    exact ⟨_, functionRest hd, function_le⟩
  | kwVar =>
    simp only [hk]
    exact ⟨_, variableRest he, varDeclaration_le⟩
  | _ => simp [opensDeclaration, hk] at ht

theorem programFrom (hd : Viable d Category.declaration.words) : ∀ n acc,
    Viable (Parse.programFrom d n acc) Category.declaration.words∗
  | 0, _ => (pure _).mono one_le_kstar
  | n + 1, _ => atEnd.bind_one fun _ => ite ((pure _).mono one_le_kstar)
    ((hd.bind fun _ => programFrom hd n _).mono mul_kstar_le_kstar)

end

theorem declaration_statement (size n : Nat) :
    Viable (declaration size n) Category.declaration.words ∧
      Viable (statement size n) statements := by
  induction n with
  | zero =>
    have hreturn : Derives .any (.statement .closed) 1 [.kwReturn, .semicolon] := .ret .absent
    exact ⟨fail _ ⟨_, 2, .statement hreturn⟩, fail _ ⟨_, .closed, 1, hreturn⟩⟩
  | succ n ih =>
    have he := (expression_operand size n).1
    exact ⟨declarationLevel he ih.1 ih.2, statementLevel he ih.1 ih.2⟩

/-- Where a program stops to be read, what was read is the beginning of a program. -/
theorem program (size : Nat) : Viable (program size) Category.declarations.words :=
  (programFrom (declaration_statement size maxNesting).1 size _).mono declarations_le

end Viable
end Parse
end Lox
