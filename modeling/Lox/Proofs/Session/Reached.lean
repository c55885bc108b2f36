import Lox.Proofs.Run.Rooted
import Lox.Proofs.Run.Site
import Lox.Proofs.Session.Joined

/-!
Sessions and the points of their runs. A session is reached by running sources one after the other,
each to its end, and a point occurs in a session when the run of a source comes to it, whether that
run ends or not.
-/

namespace Lox
open Run

namespace Session

/-- Sessions after any number of runs that have ended, well or with errors. -/
inductive Reached (κ : Nat → Float) (out : Output) : Session → Prop where
  | start : Reached κ out (Session.start κ out)
  | run {s n src} : Reached κ out s → (s.run n src).1.result ≠ .exhausted →
      Reached κ out (s.run n src).2

/-- Points that the run of a source comes to in a session that is reached. -/
def Occurs (κ : Nat → Float) (out : Output) (p : Point) : Prop :=
  ∃ s src program, Reached κ out s ∧ parseSource src = .ok program ∧
    LeadsOn ⟨.execAll program, s.machine.ready, 0⟩ p

/-- A function comes from a declaration that has been run, in the frame that it remembers. -/
def Declared (κ : Nat → Float) (out : Output) (f : Closure) : Prop :=
  ∃ m k, Occurs κ out ⟨.exec (.function f.name f.params f.body), m, k⟩ ∧ m.scope = f.frame ∧
    m.made = f.id

section
variable {κ : Nat → Float} {out : Output} {s : Session} {src : String} {n : Nat} {p q : Point}

theorem Occurs.leads (hp : Occurs κ out p) (h : Leads p q) : Occurs κ out q := by
  obtain ⟨s, src, program, hs, hparse, hp⟩ := hp
  exact ⟨s, src, program, hs, hparse, hp.tail h⟩

theorem Reached.occurs {program : List Stmt} (hs : Reached κ out s)
    (hparse : parseSource src = .ok program) :
    Occurs κ out ⟨.execAll program, s.machine.ready, 0⟩ :=
  ⟨s, src, program, hs, hparse, .refl⟩

/-! ### How runs end -/

/-- A program that is run to its end leaves the session as its statements leave the machine. -/
theorem run_ended_of_parse {program : List Stmt} (hparse : parseSource src = .ok program)
    (h : (s.run n src).1.result ≠ .exhausted) :
    ∃ r m, sequence (exec n) program s.machine.ready = result r m ∧
      (s.run n src).2 = ⟨m.takeWritten.2⟩ := by
  rw [run_of_parse hparse] at h ⊢
  cases hrun : sequence (exec n) program s.machine.ready with
  | ok flow m => exact ⟨.ok flow, m, rfl, rfl⟩
  | error e m =>
    cases e with
    | fault f => exact ⟨.error f, m, rfl, rfl⟩
    | exhausted => exact absurd (by rw [hrun]; rfl) h

/-- A run that ends leaves the session as it is, or as its statements leave the machine. -/
theorem run_ended (h : (s.run n src).1.result ≠ .exhausted) :
    (s.run n src).2 = s ∨ ∃ program r m, parseSource src = .ok program ∧
      sequence (exec n) program s.machine.ready = result r m ∧
      (s.run n src).2 = ⟨m.takeWritten.2⟩ := by
  cases hparse : parseSource src with
  | error errors =>
    refine .inl ?_
    rw [run, hparse]
  | ok program =>
    obtain ⟨r, m, hrun, hsession⟩ := run_ended_of_parse hparse h
    exact .inr ⟨program, r, m, rfl, hrun, hsession⟩

/-- The run of a source comes to its end, with this report and this session. -/
def Gives (s : Session) (src : String) (r : Report) (s' : Session) : Prop :=
  r.result ≠ .exhausted ∧ ∃ n, s.run n src = (r, s')

theorem gives_run (h : (s.run n src).1.result ≠ .exhausted) :
    s.Gives src (s.run n src).1 (s.run n src).2 :=
  ⟨h, n, (Prod.eta _).symm⟩

section
variable {r r' : Report} {s' s₁ : Session}

theorem Gives.ended_of_parse {program : List Stmt} (hparse : parseSource src = .ok program)
    (h : s.Gives src r s') : ∃ n o m, sequence (exec n) program s.machine.ready = result o m ∧
      s.run n src = (r, s') ∧ s' = ⟨m.takeWritten.2⟩ := by
  obtain ⟨hend, n, hrun⟩ := h
  have hend' : (s.run n src).1.result ≠ .exhausted := hrun ▸ hend
  obtain ⟨o, m, hsequence, hsession⟩ := run_ended_of_parse hparse hend'
  exact ⟨n, o, m, hsequence, hrun, (congrArg Prod.snd hrun).symm.trans hsession⟩

theorem Gives.ended (h : s.Gives src r s') :
    s' = s ∨ ∃ program n o m, parseSource src = .ok program ∧
      sequence (exec n) program s.machine.ready = result o m ∧ s' = ⟨m.takeWritten.2⟩ := by
  cases hparse : parseSource src with
  | error errors =>
    obtain ⟨-, n, hrun⟩ := h
    rw [run, hparse] at hrun
    exact .inl (congrArg Prod.snd hrun).symm
  | ok program =>
    obtain ⟨n, o, m, hsequence, -, hsession⟩ := h.ended_of_parse hparse
    exact .inr ⟨program, n, o, m, rfl, hsequence, hsession⟩

/-- A run that comes to its end is the same with more steps. -/
theorem Gives.stable (h : s.Gives src r s') : ∃ N, ∀ n, N ≤ n → s.run n src = (r, s') := by
  cases hparse : parseSource src with
  | error errors =>
    obtain ⟨-, n, hrun⟩ := h
    refine ⟨0, fun k _ => ?_⟩
    rw [run, hparse] at hrun ⊢
    exact hrun
  | ok program =>
    obtain ⟨n, o, m, hsequence, hrun, -⟩ := h.ended_of_parse hparse
    obtain ⟨hrestored, houtcome⟩ := sequence_outcome hsequence
    obtain ⟨N, hN⟩ := sequence_complete houtcome
    refine ⟨N, fun k hk => ?_⟩
    rw [← hrun, run_of_parse hparse, run_of_parse hparse, hsequence, hrestored.eq_on]
    exact congrArg concluded (hN k hk)

theorem Gives.unique (h : s.Gives src r s') (h' : s.Gives src r' s₁) : r = r' ∧ s' = s₁ := by
  obtain ⟨N, hN⟩ := h.stable
  obtain ⟨N', hN'⟩ := h'.stable
  have heq := (hN (max N N') (Nat.le_max_left ..)).symm.trans (hN' _ (Nat.le_max_right ..))
  exact Prod.mk.inj heq

end

theorem Gives.reached {r : Report} {s' : Session} (h : s.Gives src r s') (hs : Reached κ out s) :
    Reached κ out s' := by
  obtain ⟨hend, n, hrun⟩ := h
  have hend' : (s.run n src).1.result ≠ .exhausted := hrun ▸ hend
  have hreached := hs.run hend'
  rwa [hrun] at hreached

/-- Between runs a session is in the global frame, with no call under way. -/
theorem Reached.ready (hs : Reached κ out s) : s.machine.ready = s.machine := by
  induction hs with
  | start => rfl
  | @run s n src _ hend ih =>
    rcases run_ended hend with hsame | ⟨program, r, m, -, hrun, hsession⟩
    · rwa [hsame]
    · obtain ⟨hrestored, -⟩ := sequence_outcome hrun
      rw [hsession, Machine.takeWritten, Machine.ready]
      simp only [hrestored.scope, hrestored.depth, Machine.ready]

/-! ### What lasts -/

/-- Frames stay from one run to the next, and keep the frames around them and their names. -/
theorem run_kept (h : (s.run n src).1.result ≠ .exhausted) :
    s.machine.heap.Extends (s.run n src).2.machine.heap := by
  rcases run_ended h with hsame | ⟨program, r, m, -, hrun, hsession⟩
  · rw [hsame]
    exact .refl
  · rw [hsession]
    exact (sequence_outcome hrun).2.grows.toExtends

/-- Frames and functions have their places after a run if they had them before. -/
theorem Gives.sound {A : Point → Prop} {D : Closure → Prop} {r : Report} {s' : Session}
    (h : s.Gives src r s') (leads : ∀ {p q}, A p → Leads p q → A q)
    (declared : ∀ {x ps body m k}, A ⟨.exec (.function x ps body), m, k⟩ →
      D ⟨m.made, x, ps, body, m.scope⟩)
    (hA : ∀ program, parseSource src = .ok program → A ⟨.execAll program, s.machine.ready, 0⟩)
    (hs : s.machine.Sound D) (hready : s.machine.ready = s.machine) : s'.machine.Sound D := by
  rcases h.ended with rfl | ⟨program, n, o, m, hparse, hrun, rfl⟩
  · exact hs
  · have hafter := sequence_soundly (n := n) leads declared (hA program hparse)
      (hready.symm ▸ hs)
    rw [hrun] at hafter
    cases o with
    | ok flow =>
      cases hafter with
      | ok hm _ => exact ⟨hm.heap, hm.scope⟩
    | error f =>
      cases hafter with
      | error hm => exact ⟨hm.heap, hm.scope⟩

/-- Frames and functions have their places between runs. -/
theorem Reached.sound (hs : Reached κ out s) : s.machine.Sound (Declared κ out) := by
  induction hs with
  | start => exact ⟨.start, Nat.zero_lt_one⟩
  | @run s n src hs hend ih =>
    exact (gives_run hend).sound Occurs.leads (fun h => ⟨_, _, h, rfl, rfl⟩) (fun _ => hs.occurs)
      ih hs.ready

/-- Frames and functions have their places at all points. -/
theorem Occurs.sound (hp : Occurs κ out p) : p.Sound (Declared κ out) := by
  obtain ⟨s, src, program, hs, hparse, hp⟩ := hp
  refine hp.sound Occurs.leads (fun h => ⟨_, _, h, rfl, rfl⟩) (hs.occurs hparse) ⟨?_, nofun⟩
  exact hs.ready.symm ▸ hs.sound

/-- At all points as many calls are under way as the run is inside of. -/
theorem Occurs.counted (hp : Occurs κ out p) : Counted p.machine p.running := by
  obtain ⟨s, src, program, -, -, hp⟩ := hp
  exact hp.counted ⟨rfl, Nat.zero_le _⟩

end

end Session
end Lox
