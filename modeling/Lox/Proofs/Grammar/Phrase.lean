import Lox.Proofs.Grammar.Derivation
import Mathlib.Logic.Nonempty

/-!
Phrases of the grammar, over tokens and with their derivations. A phrase knows how its tokens belong
together, and so it can be told of each equals sign what it assigns to, and of each parameter and
each argument how many come before it.
-/

namespace Lox
open Parse

/-! ### Kinds of tokens -/

/-- The kinds of some tokens. -/
def kinds (ts : List Token) : List Kind := ts.map (·.kind)

@[simp] theorem kinds_nil : kinds [] = [] := rfl

@[simp] theorem kinds_cons (t : Token) (ts : List Token) :
    kinds (t :: ts) = t.kind :: kinds ts := rfl

@[simp] theorem kinds_append (ts us : List Token) : kinds (ts ++ us) = kinds ts ++ kinds us :=
  List.map_append

theorem kinds_eq_nil {ts : List Token} : kinds ts = [] ↔ ts = [] := List.map_eq_nil_iff

theorem kinds_eq_cons {ts : List Token} {k : Kind} {w : List Kind} :
    kinds ts = k :: w ↔ ∃ t us, ts = t :: us ∧ t.kind = k ∧ kinds us = w := List.map_eq_cons_iff

theorem kinds_eq_append {ts : List Token} {u v : List Kind} :
    kinds ts = u ++ v ↔ ∃ us vs, ts = us ++ vs ∧ kinds us = u ∧ kinds vs = v :=
  List.map_eq_append_iff

/-! ### Phrases -/

/-- A phrase of a category that is spelled by some tokens, with a derivation that never has more
than `n` levels open at once and gives every `else` to the nearest `if`. -/
inductive Phrase : Category → Nat → List Token → Type where
  | literal {n} (t : Token) : isLiteral t.kind = true → Phrase .primary n [t]
  | name {n} (t : Token) : t.kind = .identifier → Phrase .primary n [t]
  | group {n ts} (l r : Token) : l.kind = .leftParen → Phrase .expression n ts →
      r.kind = .rightParen → Phrase .primary n (l :: (ts ++ [r]))
  | callee {n ts} : Phrase .primary n ts → Phrase .call n ts
  | call {n us vs} (l r : Token) : Phrase .call n us → l.kind = .leftParen →
      Phrase .arguments n vs → r.kind = .rightParen → Phrase .call n (us ++ l :: (vs ++ [r]))
  | noArguments {n} : Phrase .arguments n []
  | someArguments {n ts} : Phrase .argumentList n ts → Phrase .arguments n ts
  | oneArgument {n ts} : Phrase .expression n ts → Phrase .argumentList n ts
  | moreArguments {n us vs} (comma : Token) : Phrase .argumentList n us → comma.kind = .comma →
      Phrase .expression n vs → Phrase .argumentList n (us ++ comma :: vs)
  | prefixed {n ts} (op : Token) : isPrefixOp op.kind = true → Phrase .operand n ts →
      Phrase .unary n (op :: ts)
  | called {n ts} : Phrase .call n ts → Phrase .unary n ts
  | operand {n ts} : Phrase .unary n ts → Phrase .operand (n + 1) ts
  | tighter {n ts} (t : Tier) : Phrase t.operands n ts → Phrase (.tier t) n ts
  | operator {n us vs} (t : Tier) (op : Token) : Phrase (.tier t) n us → t.ops op.kind = true →
      Phrase t.operands n vs → Phrase (.tier t) n (us ++ op :: vs)
  | plain {n ts} : Phrase (.tier .disjunction) n ts → Phrase .assignment n ts
  | assign {n us vs} (eq : Token) : Phrase (.tier .disjunction) n us → eq.kind = .equal →
      Phrase .expression n vs → Phrase .assignment n (us ++ eq :: vs)
  | expression {n ts} : Phrase .assignment n ts → Phrase .expression (n + 1) ts
  | absent {n} : Phrase .optional n []
  | present {n ts} : Phrase .expression n ts → Phrase .optional n ts
  | bare {n} (name semi : Token) : name.kind = .identifier → semi.kind = .semicolon →
      Phrase .variable n [name, semi]
  | initialized {n ts} (name eq semi : Token) : name.kind = .identifier → eq.kind = .equal →
      Phrase .expression n ts → semi.kind = .semicolon →
      Phrase .variable n (name :: eq :: (ts ++ [semi]))
  | initNone {n} (semi : Token) : semi.kind = .semicolon → Phrase .init n [semi]
  | initVariable {n ts} (k : Token) : k.kind = .kwVar → Phrase .variable n ts →
      Phrase .init n (k :: ts)
  | initEffect {n ts} (semi : Token) : Phrase .expression n ts → semi.kind = .semicolon →
      Phrase .init n (ts ++ [semi])
  | effect {n ts} (semi : Token) : Phrase .expression n ts → semi.kind = .semicolon →
      Phrase (.statement .closed) (n + 1) (ts ++ [semi])
  | print {n ts} (k semi : Token) : k.kind = .kwPrint → Phrase .expression n ts →
      semi.kind = .semicolon → Phrase (.statement .closed) (n + 1) (k :: (ts ++ [semi]))
  | ret {n ts} (k semi : Token) : k.kind = .kwReturn → Phrase .optional n ts →
      semi.kind = .semicolon → Phrase (.statement .closed) (n + 1) (k :: (ts ++ [semi]))
  | block {n ts} (l r : Token) : l.kind = .leftBrace → Phrase .declarations n ts →
      r.kind = .rightBrace → Phrase (.statement .closed) (n + 1) (l :: (ts ++ [r]))
  | loop {n t cs ss} (k l r : Token) : k.kind = .kwWhile → l.kind = .leftParen →
      Phrase .expression n cs → r.kind = .rightParen → Phrase (.statement t) n ss →
      Phrase (.statement t) (n + 1) (k :: l :: (cs ++ r :: ss))
  | forLoop {n t is cs ms ss} (k l semi r : Token) : k.kind = .kwFor → l.kind = .leftParen →
      Phrase .init n is → Phrase .optional n cs → semi.kind = .semicolon → Phrase .optional n ms →
      r.kind = .rightParen → Phrase (.statement t) n ss →
      Phrase (.statement t) (n + 1) (k :: l :: (is ++ (cs ++ semi :: (ms ++ r :: ss))))
  | branch {n t cs ss} (k l r : Token) : k.kind = .kwIf → l.kind = .leftParen →
      Phrase .expression n cs → r.kind = .rightParen → Phrase (.statement t) n ss →
      Phrase (.statement .dangling) (n + 1) (k :: l :: (cs ++ r :: ss))
  | branchElse {n t cs ss ss'} (k l r els : Token) : k.kind = .kwIf → l.kind = .leftParen →
      Phrase .expression n cs → r.kind = .rightParen → Phrase (.statement .closed) n ss →
      els.kind = .kwElse → Phrase (.statement t) n ss' →
      Phrase (.statement t) (n + 1) (k :: l :: (cs ++ r :: (ss ++ els :: ss')))
  | noParameters {n} : Phrase .parameters n []
  | someParameters {n ts} : Phrase .parameterList n ts → Phrase .parameters n ts
  | oneParameter {n} (name : Token) : name.kind = .identifier → Phrase .parameterList n [name]
  | moreParameters {n us} (comma name : Token) : Phrase .parameterList n us →
      comma.kind = .comma → name.kind = .identifier →
      Phrase .parameterList n (us ++ [comma, name])
  | function {n ps bs} (k name l r b c : Token) : k.kind = .kwFun → name.kind = .identifier →
      l.kind = .leftParen → Phrase .parameters n ps → r.kind = .rightParen →
      b.kind = .leftBrace → Phrase .declarations n bs → c.kind = .rightBrace →
      Phrase .declaration (n + 1) (k :: name :: l :: (ps ++ r :: b :: (bs ++ [c])))
  | varDeclaration {n ts} (k : Token) : k.kind = .kwVar → Phrase .variable n ts →
      Phrase .declaration (n + 1) (k :: ts)
  | statement {n t ts} : Phrase (.statement t) n ts → Phrase .declaration (n + 1) ts
  | nil {n} : Phrase .declarations n []
  | cons {n us vs} : Phrase .declaration n us → Phrase .declarations n vs →
      Phrase .declarations n (us ++ vs)

/-- Whether some tokens are the name of a variable, without parentheses around it. -/
def isBareName : List Token → Bool
  | [t] => t.kind == .identifier
  | _ => false

namespace Phrase

/-- How many parameters or arguments a list of them has. -/
def count : ∀ {c n ts}, Phrase c n ts → Nat
  | _, _, _, .oneArgument _ => 1
  | _, _, _, .moreArguments _ p _ _ => p.count + 1
  | _, _, _, .oneParameter _ _ => 1
  | _, _, _, .moreParameters _ _ p _ _ => p.count + 1
  | _, _, _, _ => 0

/-- The places of a phrase where a flaw is noted: each equals sign of an assignment to anything but
a bare name, and the first token of each parameter and of each argument that comes after 255 others.
What is wrong with the two sides of an assignment comes before what is wrong with their equals
sign. -/
def places : ∀ {c n ts}, Phrase c n ts → List Problem
  | _, _, _, .group _ _ _ p _ => p.places
  | _, _, _, .callee p => p.places
  | _, _, _, .call _ _ p _ q _ => p.places ++ q.places
  | _, _, _, .someArguments p => p.places
  | _, _, _, .oneArgument p => p.places
  | _, _, _, @moreArguments _ _ vs _ p _ q => p.places ++
      (if 255 ≤ p.count then [⟨.tooManyArguments, vs.head?⟩] else []) ++ q.places
  | _, _, _, .prefixed _ _ p => p.places
  | _, _, _, .called p => p.places
  | _, _, _, .operand p => p.places
  | _, _, _, .tighter _ p => p.places
  | _, _, _, .operator _ _ p _ q => p.places ++ q.places
  | _, _, _, .plain p => p.places
  | _, _, _, @assign _ us _ eq p _ q => p.places ++ q.places ++
      if isBareName us then [] else [⟨.invalidTarget, some eq⟩]
  | _, _, _, .expression p => p.places
  | _, _, _, .present p => p.places
  | _, _, _, .initialized _ _ _ _ _ p _ => p.places
  | _, _, _, .initVariable _ _ p => p.places
  | _, _, _, .initEffect _ p _ => p.places
  | _, _, _, .effect _ p _ => p.places
  | _, _, _, .print _ _ _ p _ => p.places
  | _, _, _, .ret _ _ _ p _ => p.places
  | _, _, _, .block _ _ _ p _ => p.places
  | _, _, _, .loop _ _ _ _ _ p _ q => p.places ++ q.places
  | _, _, _, .forLoop _ _ _ _ _ _ p q _ p' _ q' => p.places ++ q.places ++ p'.places ++ q'.places
  | _, _, _, .branch _ _ _ _ _ p _ q => p.places ++ q.places
  | _, _, _, .branchElse _ _ _ _ _ _ p _ q _ q' => p.places ++ q.places ++ q'.places
  | _, _, _, .someParameters p => p.places
  | _, _, _, .moreParameters _ x p _ _ => p.places ++
      if 255 ≤ p.count then [⟨.tooManyParameters, some x⟩] else []
  | _, _, _, .function _ _ _ _ _ _ _ _ _ p _ _ q _ => p.places ++ q.places
  | _, _, _, .varDeclaration _ _ p => p.places
  | _, _, _, .statement p => p.places
  | _, _, _, .cons p q => p.places ++ q.places
  | _, _, _, _ => []

/-! ### Phrases and derivations -/

/-- The kinds of a phrase have its derivation. -/
theorem derives {c : Category} {n : Nat} {ts : List Token} (p : Phrase c n ts) :
    Derives .nearest c n (kinds ts) := by
  induction p with
  | literal t h => exact .literal _ h
  | name t h =>
    simp only [kinds_cons, kinds_nil, h]
    exact .name
  | group l r hl _ hr ih =>
    simp only [kinds_cons, kinds_append, kinds_nil, hl, hr]
    exact .group ih
  | callee _ ih => exact .callee ih
  | call l r _ hl _ hr ih ih' =>
    simp only [kinds_cons, kinds_append, kinds_nil, hl, hr]
    exact .call ih ih'
  | noArguments => exact .noArguments
  | someArguments _ ih => exact .someArguments ih
  | oneArgument _ ih => exact .oneArgument ih
  | moreArguments comma _ hc _ ih ih' =>
    simp only [kinds_cons, kinds_append, hc]
    exact .moreArguments ih ih'
  | prefixed op hop _ ih => exact .prefixed _ hop ih
  | called _ ih => exact .called ih
  | operand _ ih => exact .operand ih
  | tighter t _ ih => exact .tighter t ih
  | operator t op _ hop _ ih ih' =>
    rw [kinds_append, kinds_cons]
    exact .operator t _ ih hop ih'
  | plain _ ih => exact .plain ih
  | assign eq _ heq _ ih ih' =>
    simp only [kinds_cons, kinds_append, heq]
    exact .assign ih ih'
  | expression _ ih => exact .expression ih
  | absent => exact .absent
  | present _ ih => exact .present ih
  | bare name semi hn hs =>
    simp only [kinds_cons, kinds_nil, hn, hs]
    exact .bare
  | initialized name eq semi hn heq _ hs ih =>
    simp only [kinds_cons, kinds_append, kinds_nil, hn, heq, hs]
    exact .initialized ih
  | initNone semi hs =>
    simp only [kinds_cons, kinds_nil, hs]
    exact .initNone
  | initVariable k hk _ ih =>
    simp only [kinds_cons, hk]
    exact .initVariable ih
  | initEffect semi _ hs ih =>
    simp only [kinds_cons, kinds_append, kinds_nil, hs]
    exact .initEffect ih
  | effect semi _ hs ih =>
    simp only [kinds_cons, kinds_append, kinds_nil, hs]
    exact .effect ih
  | print k semi hk _ hs ih =>
    simp only [kinds_cons, kinds_append, kinds_nil, hk, hs]
    exact .print ih
  | ret k semi hk _ hs ih =>
    simp only [kinds_cons, kinds_append, kinds_nil, hk, hs]
    exact .ret ih
  | block l r hl _ hr ih =>
    simp only [kinds_cons, kinds_append, kinds_nil, hl, hr]
    exact .block ih
  | loop k l r hk hl _ hr _ ih ih' =>
    simp only [kinds_cons, kinds_append, hk, hl, hr]
    exact .loop ih ih'
  | forLoop k l semi r hk hl _ _ hs _ hr _ ihi ihc ihm ihs =>
    simp only [kinds_cons, kinds_append, hk, hl, hs, hr]
    exact .forLoop ihi ihc ihm ihs
  | branch k l r hk hl _ hr _ ih ih' =>
    simp only [kinds_cons, kinds_append, hk, hl, hr]
    exact .branch ih ih'
  | branchElse k l r els hk hl _ hr _ hels _ ihc ihs ihs' =>
    simp only [kinds_cons, kinds_append, hk, hl, hr, hels]
    exact .branchElse ihc ihs (fun _ => rfl) ihs'
  | noParameters => exact .noParameters
  | someParameters _ ih => exact .someParameters ih
  | oneParameter name hn =>
    simp only [kinds_cons, kinds_nil, hn]
    exact .oneParameter
  | moreParameters comma name _ hc hn ih =>
    simp only [kinds_cons, kinds_append, kinds_nil, hc, hn]
    exact .moreParameters ih
  | function k name l r b c hk hn hl _ hr hb _ hc ih ih' =>
    simp only [kinds_cons, kinds_append, kinds_nil, hk, hn, hl, hr, hb, hc]
    exact .function ih ih'
  | varDeclaration k hk _ ih =>
    simp only [kinds_cons, hk]
    exact .varDeclaration ih
  | statement _ ih => exact .statement ih
  | nil => exact .nil
  | cons _ _ ih ih' =>
    rw [kinds_append]
    exact .cons ih ih'

end Phrase

/-- Tokens of the right kinds are a phrase. -/
theorem Derives.nonempty_phrase {c : Category} {n : Nat} {w : List Kind}
    (h : Derives .nearest c n w) : ∀ {ts}, kinds ts = w → Nonempty (Phrase c n ts) := by
  induction h with
  | literal k hk =>
    intro ts h
    simp only [kinds_eq_cons, kinds_eq_nil] at h
    obtain ⟨t, _, rfl, rfl, rfl⟩ := h
    exact ⟨.literal t hk⟩
  | name =>
    intro ts h
    simp only [kinds_eq_cons, kinds_eq_nil] at h
    obtain ⟨t, _, rfl, ht, rfl⟩ := h
    exact ⟨.name t ht⟩
  | group _ ih =>
    intro ts h
    simp only [kinds_eq_cons, kinds_eq_append, kinds_eq_nil] at h
    obtain ⟨l, _, rfl, hl, ts, _, rfl, hts, r, _, rfl, hr, rfl⟩ := h
    obtain ⟨p⟩ := ih hts
    exact ⟨.group l r hl p hr⟩
  | callee _ ih => exact fun h => (ih h).map .callee
  | call _ _ ih ih' =>
    intro ts h
    simp only [kinds_eq_cons, kinds_eq_append, kinds_eq_nil] at h
    obtain ⟨us, _, rfl, hus, l, _, rfl, hl, vs, _, rfl, hvs, r, _, rfl, hr, rfl⟩ := h
    obtain ⟨p⟩ := ih hus
    obtain ⟨q⟩ := ih' hvs
    exact ⟨.call l r p hl q hr⟩
  | noArguments =>
    intro ts h
    obtain rfl := kinds_eq_nil.mp h
    exact ⟨.noArguments⟩
  | someArguments _ ih => exact fun h => (ih h).map .someArguments
  | oneArgument _ ih => exact fun h => (ih h).map .oneArgument
  | moreArguments _ _ ih ih' =>
    intro ts h
    simp only [kinds_eq_cons, kinds_eq_append] at h
    obtain ⟨us, _, rfl, hus, comma, vs, rfl, hc, hvs⟩ := h
    obtain ⟨p⟩ := ih hus
    obtain ⟨q⟩ := ih' hvs
    exact ⟨.moreArguments comma p hc q⟩
  | prefixed k hk _ ih =>
    intro ts h
    obtain ⟨op, ts, rfl, rfl, hts⟩ := kinds_eq_cons.mp h
    exact (ih hts).map (.prefixed op hk)
  | called _ ih => exact fun h => (ih h).map .called
  | operand _ ih => exact fun h => (ih h).map .operand
  | tighter t _ ih => exact fun h => (ih h).map (.tighter t)
  | operator t k _ hk _ ih ih' =>
    intro ts h
    simp only [kinds_eq_cons, kinds_eq_append] at h
    obtain ⟨us, _, rfl, hus, op, vs, rfl, rfl, hvs⟩ := h
    obtain ⟨p⟩ := ih hus
    obtain ⟨q⟩ := ih' hvs
    exact ⟨.operator t op p hk q⟩
  | plain _ ih => exact fun h => (ih h).map .plain
  | assign _ _ ih ih' =>
    intro ts h
    simp only [kinds_eq_cons, kinds_eq_append] at h
    obtain ⟨us, _, rfl, hus, eq, vs, rfl, heq, hvs⟩ := h
    obtain ⟨p⟩ := ih hus
    obtain ⟨q⟩ := ih' hvs
    exact ⟨.assign eq p heq q⟩
  | expression _ ih => exact fun h => (ih h).map .expression
  | absent =>
    intro ts h
    obtain rfl := kinds_eq_nil.mp h
    exact ⟨.absent⟩
  | present _ ih => exact fun h => (ih h).map .present
  | bare =>
    intro ts h
    simp only [kinds_eq_cons, kinds_eq_nil] at h
    obtain ⟨name, _, rfl, hn, semi, _, rfl, hs, rfl⟩ := h
    exact ⟨.bare name semi hn hs⟩
  | initialized _ ih =>
    intro ts h
    simp only [kinds_eq_cons, kinds_eq_append, kinds_eq_nil] at h
    obtain ⟨name, _, rfl, hn, eq, _, rfl, heq, ts, _, rfl, hts, semi, _, rfl, hs, rfl⟩ := h
    obtain ⟨p⟩ := ih hts
    exact ⟨.initialized name eq semi hn heq p hs⟩
  | initNone =>
    intro ts h
    simp only [kinds_eq_cons, kinds_eq_nil] at h
    obtain ⟨semi, _, rfl, hs, rfl⟩ := h
    exact ⟨.initNone semi hs⟩
  | initVariable _ ih =>
    intro ts h
    obtain ⟨k, ts, rfl, hk, hts⟩ := kinds_eq_cons.mp h
    exact (ih hts).map (.initVariable k hk)
  | initEffect _ ih =>
    intro ts h
    simp only [kinds_eq_cons, kinds_eq_append, kinds_eq_nil] at h
    obtain ⟨ts, _, rfl, hts, semi, _, rfl, hs, rfl⟩ := h
    exact (ih hts).map (.initEffect semi · hs)
  | effect _ ih =>
    intro ts h
    simp only [kinds_eq_cons, kinds_eq_append, kinds_eq_nil] at h
    obtain ⟨ts, _, rfl, hts, semi, _, rfl, hs, rfl⟩ := h
    exact (ih hts).map (.effect semi · hs)
  | print _ ih =>
    intro ts h
    simp only [kinds_eq_cons, kinds_eq_append, kinds_eq_nil] at h
    obtain ⟨k, _, rfl, hk, ts, _, rfl, hts, semi, _, rfl, hs, rfl⟩ := h
    exact (ih hts).map (.print k semi hk · hs)
  | ret _ ih =>
    intro ts h
    simp only [kinds_eq_cons, kinds_eq_append, kinds_eq_nil] at h
    obtain ⟨k, _, rfl, hk, ts, _, rfl, hts, semi, _, rfl, hs, rfl⟩ := h
    exact (ih hts).map (.ret k semi hk · hs)
  | block _ ih =>
    intro ts h
    simp only [kinds_eq_cons, kinds_eq_append, kinds_eq_nil] at h
    obtain ⟨l, _, rfl, hl, ts, _, rfl, hts, r, _, rfl, hr, rfl⟩ := h
    exact (ih hts).map (.block l r hl · hr)
  | loop _ _ ih ih' =>
    intro ts h
    simp only [kinds_eq_cons, kinds_eq_append] at h
    obtain ⟨k, _, rfl, hk, l, _, rfl, hl, cs, _, rfl, hcs, r, ss, rfl, hr, hss⟩ := h
    obtain ⟨p⟩ := ih hcs
    obtain ⟨q⟩ := ih' hss
    exact ⟨.loop k l r hk hl p hr q⟩
  | forLoop _ _ _ _ ihi ihc ihm ihs =>
    intro ts h
    simp only [kinds_eq_cons, kinds_eq_append] at h
    obtain ⟨k, _, rfl, hk, l, _, rfl, hl, is, _, rfl, his, cs, _, rfl, hcs, semi, _, rfl, hsemi,
      ms, _, rfl, hms, r, ss, rfl, hr, hss⟩ := h
    obtain ⟨p⟩ := ihi his
    obtain ⟨q⟩ := ihc hcs
    obtain ⟨p'⟩ := ihm hms
    obtain ⟨q'⟩ := ihs hss
    exact ⟨.forLoop k l semi r hk hl p q hsemi p' hr q'⟩
  | branch _ _ ih ih' =>
    intro ts h
    simp only [kinds_eq_cons, kinds_eq_append] at h
    obtain ⟨k, _, rfl, hk, l, _, rfl, hl, cs, _, rfl, hcs, r, ss, rfl, hr, hss⟩ := h
    obtain ⟨p⟩ := ih hcs
    obtain ⟨q⟩ := ih' hss
    exact ⟨.branch k l r hk hl p hr q⟩
  | branchElse _ _ ht _ ihc ihs ihs' =>
    intro ts h
    obtain rfl := ht rfl
    simp only [kinds_eq_cons, kinds_eq_append] at h
    obtain ⟨k, _, rfl, hk, l, _, rfl, hl, cs, _, rfl, hcs, r, _, rfl, hr, ss, _, rfl, hss,
      els, ss', rfl, hels, hss'⟩ := h
    obtain ⟨p⟩ := ihc hcs
    obtain ⟨q⟩ := ihs hss
    obtain ⟨q'⟩ := ihs' hss'
    exact ⟨.branchElse k l r els hk hl p hr q hels q'⟩
  | noParameters =>
    intro ts h
    obtain rfl := kinds_eq_nil.mp h
    exact ⟨.noParameters⟩
  | someParameters _ ih => exact fun h => (ih h).map .someParameters
  | oneParameter =>
    intro ts h
    simp only [kinds_eq_cons, kinds_eq_nil] at h
    obtain ⟨t, _, rfl, ht, rfl⟩ := h
    exact ⟨.oneParameter t ht⟩
  | moreParameters _ ih =>
    intro ts h
    simp only [kinds_eq_cons, kinds_eq_append, kinds_eq_nil] at h
    obtain ⟨us, _, rfl, hus, comma, _, rfl, hc, t, _, rfl, ht, rfl⟩ := h
    exact (ih hus).map (.moreParameters comma t · hc ht)
  | function _ _ ih ih' =>
    intro ts h
    simp only [kinds_eq_cons, kinds_eq_append, kinds_eq_nil] at h
    obtain ⟨k, _, rfl, hk, name, _, rfl, hn, l, _, rfl, hl, ps, _, rfl, hps, r, _, rfl, hr,
      b, _, rfl, hb, bs, _, rfl, hbs, c, _, rfl, hc, rfl⟩ := h
    obtain ⟨p⟩ := ih hps
    obtain ⟨q⟩ := ih' hbs
    exact ⟨.function k name l r b c hk hn hl p hr hb q hc⟩
  | varDeclaration _ ih =>
    intro ts h
    obtain ⟨k, ts, rfl, hk, hts⟩ := kinds_eq_cons.mp h
    exact (ih hts).map (.varDeclaration k hk)
  | statement _ ih => exact fun h => (ih h).map .statement
  | nil =>
    intro ts h
    obtain rfl := kinds_eq_nil.mp h
    exact ⟨.nil⟩
  | cons _ _ ih ih' =>
    intro ts h
    obtain ⟨us, vs, rfl, hus, hvs⟩ := kinds_eq_append.mp h
    obtain ⟨p⟩ := ih hus
    obtain ⟨q⟩ := ih' hvs
    exact ⟨.cons p q⟩

/-- Tokens are a phrase exactly if their kinds can be derived. -/
theorem Phrase.nonempty_iff {c : Category} {n : Nat} {ts : List Token} :
    Nonempty (Phrase c n ts) ↔ Derives .nearest c n (kinds ts) :=
  ⟨fun ⟨p⟩ => p.derives, fun h => h.nonempty_phrase rfl⟩

end Lox
