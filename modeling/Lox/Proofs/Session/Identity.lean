import Lox.Proofs.Run.Equality
import Lox.Proofs.Run.Time
import Lox.Proofs.Session.Reached

/-!
What functions are equal. Each execution of a declaration makes a function of its own, in whatever
run, call or round of a loop it takes place, and a function keeps equal to itself and to no other,
however it gets about.
-/

namespace Lox
open Run

namespace Session

/-! ### Histories -/

/-- The runs of a session so far, the last one first: what was run and on which session. All runs
but the last have come to their ends. -/
inductive History (κ : Nat → Float) (out : Output) : List (Session × String) → Prop where
  | first {src} : History κ out [(start κ out, src)]
  | next {s src runs r s' src'} : History κ out ((s, src) :: runs) → s.Gives src r s' →
      History κ out ((s', src') :: (s, src) :: runs)

/-- A run comes to a point. -/
def Meets (run : Session × String) (p : Point) : Prop :=
  ∃ program, parseSource run.2 = .ok program ∧
    LeadsOn ⟨.execAll program, run.1.machine.ready, 0⟩ p

/-- One of the runs comes to a point. -/
def Visits (runs : List (Session × String)) (p : Point) : Prop := ∃ run ∈ runs, Meets run p

/-- Values that come up in the runs: a variable has one in some frame at some point, or it is the
value of an expression. -/
inductive Has (runs : List (Session × String)) : Value → Prop where
  | bound {p x i v} : Visits runs p → p.machine.heap.own? x i = some v → Has runs v
  | value {e m k n v m'} : Visits runs ⟨.eval e, m, k⟩ → eval n e m = .ok v m' → Has runs v

/-- The execution of a declaration, from a point on, binds the name to a value. -/
def Produces (p : Point) (v : Value) : Prop :=
  ∃ x ps body n m, p.work = .exec (.function x ps body) ∧
    exec n (.function x ps body) p.machine = .ok .next m ∧
    m.heap.own? x.lexeme p.machine.scope = some v

/-- The runs come to one point before they come to the other: in an earlier run, or in one run. -/
def Precedes (runs : List (Session × String)) (p q : Point) : Prop :=
  ∃ later ∈ runs, Meets later q ∧ ((Meets later p ∧ Before p q) ∨
    ∃ earlier, [later, earlier].Sublist runs ∧ Meets earlier p)

/-- The functions that were made at the points of the runs. -/
def Made (runs : List (Session × String)) (f : Closure) : Prop :=
  ∃ p, Visits runs p ∧ Declares p f

section
variable {κ : Nat → Float} {out : Output} {runs all : List (Session × String)}
  {run earlier later : Session × String} {s : Session} {src : String} {n : Nat} {p q : Point}
  {f g : Closure} {v : Value} {r : Report} {s' : Session}

/-! ### Points of a history -/

theorem Visits.leads (hp : Visits runs p) (h : Leads p q) : Visits runs q := by
  obtain ⟨run, hrun, program, hparse, hp⟩ := hp
  exact ⟨run, hrun, program, hparse, hp.tail h⟩

theorem Visits.declared {x : Token} {ps : List Token} {body : List Stmt} {m : Machine} {k : Nat}
    (h : Visits runs ⟨.exec (.function x ps body), m, k⟩) :
    Made runs ⟨m.made, x, ps, body, m.scope⟩ :=
  ⟨_, h, .intro⟩

theorem History.reached (h : History κ out runs) : ∀ run ∈ runs, Reached κ out run.1 := by
  induction h with
  | first => exact List.forall_mem_singleton.mpr .start
  | next _ hgives ih =>
    exact List.forall_mem_cons.mpr ⟨hgives.reached (ih _ (List.mem_cons_self ..)), ih⟩

/-- Frames and functions have their places before each run of a history, if all functions of it are
counted in. -/
theorem History.sound_of_subset (h : History κ out runs) (hsub : runs ⊆ all) :
    ∀ run ∈ runs, run.1.machine.Sound (Made all) := by
  induction h with
  | first => exact List.forall_mem_singleton.mpr ⟨.start, Nat.zero_lt_one⟩
  | @next s src runs r s' src' h hgives ih =>
    have ih := ih fun run hrun => hsub (List.mem_cons_of_mem _ hrun)
    have hall : (s, src) ∈ all := hsub (List.mem_cons_of_mem _ (List.mem_cons_self ..))
    have hs' : s'.machine.Sound (Made all) := hgives.sound Visits.leads Visits.declared
      (fun program hparse => ⟨_, hall, program, hparse, .refl⟩) (ih _ (List.mem_cons_self ..))
      (h.reached _ (List.mem_cons_self ..)).ready
    exact List.forall_mem_cons.mpr ⟨hs', ih⟩

theorem History.sound (h : History κ out runs) (hp : Visits runs p) : p.Sound (Made runs) := by
  obtain ⟨run, hrun, program, hparse, hp⟩ := hp
  have hs := h.sound_of_subset (List.Subset.refl _) run hrun
  refine hp.sound Visits.leads Visits.declared ⟨run, hrun, program, hparse, .refl⟩ ⟨?_, nofun⟩
  exact (h.reached run hrun).ready.symm ▸ hs

/-- All functions that come up in the runs were made in them. -/
theorem Has.made (hv : Has runs (.callable (.function f))) (h : History κ out runs) :
    Made runs f := by
  cases hv with
  | bound hp hv => exact ((h.sound hp).machine.heap.known _ _ _ hv f rfl).2
  | value hp hv =>
    exact ((eval_soundly Visits.leads Visits.declared hp (h.sound hp).machine hv).2 f rfl).2

/-! ### Declarations and what they produce -/

theorem exec_function {x : Token} {ps : List Token} {body : List Stmt} {m : Machine} :
    exec (n + 1) (.function x ps body) m = .ok .next { m with
      heap := m.heap.define x.lexeme (.callable (.function ⟨m.made, x, ps, body, m.scope⟩)) m.scope
      made := m.made + 1 } := by
  rw [exec_succ]
  rfl

theorem Produces.declares (h : Produces p v) : ∃ f, Declares p f ∧ v = .callable (.function f) := by
  obtain ⟨work, m, k⟩ := p
  obtain ⟨x, ps, body, n, m', rfl, hexec, hv⟩ := h
  obtain ⟨-, rfl⟩ := exec_unique hexec (exec_function (n := n))
  refine ⟨_, .intro, ?_⟩
  have hscope : m.scope < m.heap.frames.size := by
    simpa using Heap.lt_size_of_own? hv
  rw [Heap.own?_define hscope, if_pos ⟨rfl, rfl⟩] at hv
  exact (Option.some.inj hv).symm

theorem History.produces (h : History κ out runs) (hp : Visits runs p) (hf : Declares p f) :
    Produces p (.callable (.function f)) := by
  have hscope := (h.sound hp).machine.scope
  cases hf with
  | intro =>
    refine ⟨_, _, _, 1, _, rfl, exec_function, ?_⟩
    exact (Heap.own?_define hscope).trans (if_pos ⟨rfl, rfl⟩)

/-! ### The order of executions -/

/-- The functions made in a run that has ended have been counted. -/
theorem Gives.made_lt (h : s.Gives src r s') (hp : Meets (s, src) p) (hf : Declares p f) :
    p.machine.made < s'.machine.made := by
  obtain ⟨program, hparse, hp⟩ := hp
  obtain ⟨n, o, m, hsequence, -, rfl⟩ := h.ended_of_parse hparse
  exact hf.made_lt_of_leadsOn hp ⟨o, (sequence_outcome hsequence).2⟩

theorem Gives.made_le (h : s.Gives src r s') : s.machine.made ≤ s'.machine.made := by
  rcases h.ended with rfl | ⟨program, n, o, m, -, hsequence, rfl⟩
  · exact Nat.le_refl _
  · exact (sequence_outcome hsequence).2.made_le

/-- Before a run, the functions made in earlier ones have been counted. -/
theorem History.pairwise (h : History κ out runs) : runs.Pairwise fun later earlier =>
    ∀ p f, Meets earlier p → Declares p f → p.machine.made < later.1.machine.made := by
  induction h with
  | first => exact List.pairwise_singleton ..
  | next _ hgives ih =>
    obtain ⟨hearlier, -⟩ := List.pairwise_cons.mp ih
    refine List.pairwise_cons.mpr ⟨List.forall_mem_cons.mpr ⟨?_, ?_⟩, ih⟩
    · exact fun p f hp hf => hgives.made_lt hp hf
    · exact fun run hrun p f hp hf =>
        Nat.lt_of_lt_of_le (hearlier run hrun p f hp hf) hgives.made_le

theorem History.made_lt_of_precedes (h : History κ out runs) (hf : Declares p f)
    (hpq : Precedes runs p q) : p.machine.made < q.machine.made := by
  obtain ⟨later, -, ⟨program, -, hq⟩, ⟨-, hpq⟩ | ⟨earlier, hsub, hp⟩⟩ := hpq
  · exact hf.made_lt_of_before hpq
  · have hlt := List.pairwise_iff_forall_sublist.mp h.pairwise hsub p f hp hf
    exact Nat.lt_of_lt_of_le hlt hq.made_le

/-- Two members of a list are the same, or one comes before the other. -/
theorem mem_ordered {α : Type} {a b : α} {l : List α} (ha : a ∈ l) (hb : b ∈ l) :
    a = b ∨ [a, b].Sublist l ∨ [b, a].Sublist l := by
  induction l with
  | nil => cases ha
  | cons c l ih =>
    rcases List.mem_cons.mp ha with rfl | ha'
    · rcases List.mem_cons.mp hb with rfl | hb
      · exact .inl rfl
      · exact .inr (.inl (.cons_cons _ (List.singleton_sublist.mpr hb)))
    · rcases List.mem_cons.mp hb with rfl | hb
      · exact .inr (.inr (.cons_cons _ (List.singleton_sublist.mpr ha')))
      · exact (ih ha' hb).imp_right (Or.imp (.cons _) (.cons _))

/-- Of two executions of declarations in the runs, one comes before the other. -/
theorem precedes_or_precedes (hp : Visits runs p) (hq : Visits runs q) (hf : Declares p f)
    (hg : Declares q g) : p = q ∨ Precedes runs p q ∨ Precedes runs q p := by
  obtain ⟨run, hrun, hp⟩ := hp
  obtain ⟨run', hrun', hq⟩ := hq
  rcases mem_ordered hrun hrun' with rfl | hsub | hsub
  · obtain ⟨program, hparse, hp'⟩ := hp
    obtain ⟨program', hparse', hq'⟩ := hq
    obtain rfl := Except.ok.inj (hparse.symm.trans hparse')
    refine (hf.ordered hg hp' hq').imp_right (Or.imp (fun h => ?_) fun h => ?_)
    · exact ⟨run, hrun, ⟨program, hparse, hq'⟩, .inl ⟨⟨program, hparse, hp'⟩, h⟩⟩
    · exact ⟨run, hrun, ⟨program, hparse, hp'⟩, .inl ⟨⟨program, hparse, hq'⟩, h⟩⟩
  · exact .inr (.inr ⟨run, hrun, hp, .inr ⟨run', hsub, hq⟩⟩)
  · exact .inr (.inl ⟨run', hrun', hq, .inr ⟨run, hsub, hp⟩⟩)

/-- The number of a function tells which execution of a declaration made it. -/
theorem History.eq_of_id (h : History κ out runs) (hp : Visits runs p) (hq : Visits runs q)
    (hf : Declares p f) (hg : Declares q g) (hid : f.id = g.id) : p = q := by
  have hmade : p.machine.made = q.machine.made := hf.id_eq.symm.trans (hid.trans hg.id_eq)
  rcases precedes_or_precedes hp hq hf hg with heq | hpq | hqp
  · exact heq
  · exact absurd hmade (Nat.ne_of_lt (h.made_lt_of_precedes hf hpq))
  · exact absurd hmade (Nat.ne_of_gt (h.made_lt_of_precedes hg hqp))

/-- One execution of a declaration makes one function. -/
theorem Produces.unique {w : Value} (hv : Produces p v) (hw : Produces p w) : v = w := by
  obtain ⟨f, hf, rfl⟩ := hv.declares
  obtain ⟨g, hg, rfl⟩ := hw.declares
  rw [hf.unique hg]

theorem Produces.not_clock : ¬Produces p (.callable .clock) := by
  intro h
  obtain ⟨f, -, hf⟩ := h.declares
  cases hf

/-- Callables that come up are equal if both are the clock, or one execution has made both. -/
theorem History.same_iff {c d : Callable} (h : History κ out runs) (hc : Has runs (.callable c))
    (hd : Has runs (.callable d)) : (Value.callable c).same (.callable d) = true ↔
      c = .clock ∧ d = .clock ∨
        ∃ p, Visits runs p ∧ Produces p (.callable c) ∧ Produces p (.callable d) := by
  rw [Value.same_iff]
  constructor
  · intro heq
    cases heq with
    | clock => exact .inl ⟨rfl, rfl⟩
    | function hid =>
      obtain ⟨p, hp, hf⟩ := hc.made h
      obtain ⟨q, hq, hg⟩ := hd.made h
      obtain rfl := h.eq_of_id hp hq hf hg hid
      exact .inr ⟨p, hp, h.produces hp hf, h.produces hp hg⟩
  · rintro (⟨rfl, rfl⟩ | ⟨p, -, hpc, hpd⟩)
    · exact .clock
    · cases hpc.unique hpd
      cases c with
      | clock => exact absurd hpc Produces.not_clock
      | function f => exact .function rfl

end

/-- Equality of values. Neither `==` nor `!=` faults once it has its operands, and each gives the
opposite of the other. Equal values are equal both ways round, what is equal to one of two equal
values is equal to the other, and only `NaN` is not equal to itself. Callables that come up in a
session are equal if both are the clock or one execution of a declaration has made both. An
execution makes one function; of two executions, in whatever run, call or round of a loop, one comes
before the other, and the functions that they make are not equal. -/
theorem equality (κ : Nat → Float) (out : Output) :
    (∀ l op r n a b m m₁ m₂, eval n l m = .ok a m₁ → eval n r m₁ = .ok b m₂ →
      (op.kind = .equalEqual → eval (n + 1) (.binary l op r) m = .ok (.bool (a.same b)) m₂) ∧
      (op.kind = .bangEqual → eval (n + 1) (.binary l op r) m = .ok (.bool (!a.same b)) m₂)) ∧
    (∀ a b : Value, a.same b = true → b.same a = true) ∧
    (∀ a b c : Value, a.same b = true → b.same c = true → a.same c = true) ∧
    (∀ a : Value, a.same a = true ↔ ¬∃ x, a = .num x ∧ x.isNaN = true) ∧
    ∀ runs, History κ out runs →
      (∀ c d, Has runs (.callable c) → Has runs (.callable d) →
        ((Value.callable c).same (.callable d) = true ↔ c = .clock ∧ d = .clock ∨
          ∃ p, Visits runs p ∧ Produces p (.callable c) ∧ Produces p (.callable d))) ∧
      (∀ x ps body m k, Visits runs ⟨.exec (.function x ps body), m, k⟩ →
        ∃! v, Produces ⟨.exec (.function x ps body), m, k⟩ v) ∧
      (∀ p q v w, Visits runs p → Visits runs q → Produces p v → Produces q w →
        p = q ∨ Precedes runs p q ∨ Precedes runs q p) ∧
      (∀ p q v w, Precedes runs p q → Produces p v → Produces q w → v.same w = false) := by
  refine ⟨fun l op r n a b m m₁ m₂ ha hb => ⟨fun hop => eval_equal hop ha hb,
    fun hop => eval_unequal hop ha hb⟩, fun a b => Value.same_symm, fun a b c => Value.same_trans,
    fun a => Value.same_self, fun runs h => ⟨fun c d => h.same_iff, fun x ps body m k hp => ?_,
    fun p q v w hp hq hv hw => ?_, fun p q v w hpq hv hw => ?_⟩⟩
  · exact ⟨_, h.produces hp .intro, fun v hv => hv.unique (h.produces hp .intro)⟩
  · obtain ⟨f, hf, -⟩ := hv.declares
    obtain ⟨g, hg, -⟩ := hw.declares
    exact precedes_or_precedes hp hq hf hg
  · obtain ⟨f, hf, rfl⟩ := hv.declares
    obtain ⟨g, hg, rfl⟩ := hw.declares
    have hlt := h.made_lt_of_precedes hf hpq
    rw [← hf.id_eq, ← hg.id_eq] at hlt
    exact beq_eq_false_iff_ne.mpr (Nat.ne_of_lt hlt)

/-- A declaration is run twice: the functions that it makes are not equal, and no single execution
has made them both. -/
theorem equality_two_runs :
    let src := "fun f() \x7b\x7d"
    let first := start (fun _ => 0) .unlimited
    let runs := [((first.run 2 src).2, src), (first, src)]
    ∃ c d, Has runs (.callable c) ∧ Has runs (.callable d) ∧
      (Value.callable c).same (.callable d) = false ∧
      ¬∃ p, Visits runs p ∧ Produces p (.callable c) ∧ Produces p (.callable d) := by
  intro src first runs
  let f : Token := ⟨.identifier, "f", 1, 4, 1, .nil⟩
  have hscan : scan src = ([⟨.kwFun, "fun", 1, 0, 0, .nil⟩, f, ⟨.leftParen, "(", 1, 5, 2, .nil⟩,
      ⟨.rightParen, ")", 1, 6, 3, .nil⟩, ⟨.leftBrace, "\x7b", 1, 8, 4, .nil⟩,
      ⟨.rightBrace, "\x7d", 1, 9, 5, .nil⟩, ⟨.eof, "", 1, 10, 6, .nil⟩], []) := by cbv
  have hparse : parseSource src = .ok [.function f [] []] := by
    rw [parseSource_eq_ok, hscan]
    exact ⟨rfl, rfl⟩
  have hend : (first.run 2 src).1.result ≠ .exhausted := by
    rw [run_of_parse hparse]
    rintro ⟨⟩
  let c : Callable := .function ⟨0, f, [], [], Heap.globals⟩
  let d : Callable := .function ⟨1, f, [], [], Heap.globals⟩
  let once : Machine := { Machine.start (fun _ => 0) .unlimited with
    heap := Heap.start.define "f" (.callable c) Heap.globals
    made := 1 }
  let twice : Machine := { once with
    heap := once.heap.define "f" (.callable d) Heap.globals
    made := 2 }
  have hsecond : (first.run 2 src).2 = ⟨once⟩ := by
    rw [run_of_parse hparse]
    rfl
  have hhistory : History (fun _ => 0) .unlimited runs := .next .first (gives_run hend)
  obtain ⟨-, -, -, -, hfunctions⟩ := equality (fun _ => 0) .unlimited
  obtain ⟨hsame, -, -, hdiffer⟩ := hfunctions runs hhistory
  -- What the two runs come to: the declaration, and then the end of the program.
  have hdeclaration (s : Session) : Meets (s, src)
      ⟨.exec (.function f [] []), s.machine.ready, 0⟩ := ⟨_, hparse, .single .head⟩
  have hc : Meets (first, src) ⟨.execAll [], once, 0⟩ := ⟨_, hparse, .single (.tail (n := 1) rfl)⟩
  have hd : Meets (⟨once⟩, src) ⟨.execAll [], twice, 0⟩ :=
    ⟨_, hparse, .single (.tail (n := 1) rfl)⟩
  have hlater : (⟨once⟩, src) ∈ runs := hsecond ▸ List.mem_cons_self ..
  have hearlier : (first, src) ∈ runs := List.mem_cons_of_mem _ (List.mem_cons_self ..)
  have hhas : Has runs (.callable c) := .bound ⟨_, hearlier, hc⟩ (i := 0) (x := "f") rfl
  have hhas' : Has runs (.callable d) := .bound ⟨_, hlater, hd⟩ (i := 0) (x := "f") rfl
  have hprecedes : Precedes runs ⟨.exec (.function f [] []), first.machine.ready, 0⟩
      ⟨.exec (.function f [] []), once.ready, 0⟩ :=
    ⟨_, hlater, hdeclaration ⟨once⟩, .inr ⟨_, hsecond ▸ .refl _, hdeclaration first⟩⟩
  have hne := hdiffer _ _ _ _ hprecedes ⟨f, [], [], 1, once, rfl, rfl, rfl⟩
    ⟨f, [], [], 1, twice, rfl, rfl, rfl⟩
  refine ⟨c, d, hhas, hhas', hne, fun hboth => ?_⟩
  exact absurd ((hsame c d hhas hhas').mpr (.inr hboth)) (Bool.eq_false_iff.mp hne)

end Session
end Lox
