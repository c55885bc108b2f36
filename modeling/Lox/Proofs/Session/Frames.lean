import Lox.Proofs.Grammar.WellFormed
import Lox.Proofs.Session.Reached

/-!
Frames over whole sessions: how they stand around each other, when they gain names, and in which
frames functions run.
-/

namespace Lox
open BigStep Run

/-! ### What statements declare -/

/-- The name that a statement itself declares. -/
def Stmt.declared? : Stmt → Option String
  | .var x _ | .function x _ _ => some x.lexeme
  | _ => none

theorem Stmt.declared?_eq_nil {s : Stmt} (h : (!s.isDeclaration) = true) :
    s.declared?.toList = [] := by
  cases s with
  | var | function => cases h
  | _ => rfl

/-- No branch of a statement that has been read is a declaration, and neither is the body of a
loop: what a statement may declare it declares itself. -/
theorem Stmt.declares_of_wellFormed : ∀ {s : Stmt}, s.wellFormed = true →
    s.declares = s.declared?.toList
  | .var _ _, _ | .function _ _ _, _ | .expression _, _ | .print _ _, _ | .block _, _
  | .ret _ _, _ => rfl
  | .branch c yes none, h => by
    simp only [wellFormed, Bool.and_eq_true] at h
    exact (declares_of_wellFormed h.2).trans (declared?_eq_nil h.1.2)
  | .branch c yes (some no), h => by
    simp only [wellFormed, Bool.and_eq_true] at h
    obtain ⟨⟨⟨⟨⟨-, hyes⟩, hwyes⟩, -⟩, hno⟩, hwno⟩ := h
    rw [declares, declares_of_wellFormed hwyes, declares_of_wellFormed hwno,
      declared?_eq_nil hyes, declared?_eq_nil hno]
    rfl
  | .loop c body, h => by
    simp only [wellFormed, Bool.and_eq_true] at h
    exact (declares_of_wellFormed h.2).trans (declared?_eq_nil h.1.2)

/-! ### Which names frames gain -/

namespace Run

variable {m m' : Machine} {n : Nat} {i : FrameId} {x : String}

/-- No frame gains a name while an expression is evaluated. -/
theorem eval_gains {e : Expr} {r : Outcome Value} (h : eval n e m = result r m')
    (hi : i < m.heap.frames.size) (hx : m'.heap.Binds i x) : m.heap.Binds i x := by
  rcases (eval_outcome h).2.grows.gained i hi x hx with hb | ⟨-, hmem⟩
  · exact hb
  · cases hmem

/-- A statement that has been read makes only the current frame gain a name, and only the one that
it declares. -/
theorem exec_gains {s : Stmt} {r : Outcome Flow} (hs : s.wellFormed = true)
    (h : exec n s m = result r m') (hi : i < m.heap.frames.size) (hx : m'.heap.Binds i x) :
    m.heap.Binds i x ∨ i = m.scope ∧ s.declared? = some x := by
  rcases (exec_outcome h).2.grows.gained i hi x hx with hb | ⟨hscope, hmem⟩
  · exact .inl hb
  · rw [Stmt.declares_of_wellFormed hs, Option.mem_toList] at hmem
    exact .inr ⟨hscope, hmem⟩

end Run

/-! ### Sessions -/

/-- From each frame the next one around it leads on to another, without coming to one again, and at
last to the global frame, which has none around it. -/
structure Heap.Grounded (h : Heap) : Prop where
  head : ∀ i < h.frames.size, (h.chain i).head? = some i
  linked : ∀ i < h.frames.size, (h.chain i).IsChain fun a b => h.enclosing? a = some b
  distinct : ∀ i < h.frames.size, (h.chain i).Nodup
  last : ∀ i < h.frames.size, (h.chain i).getLast? = some Heap.globals
  globals : h.enclosing? Heap.globals = none

theorem Heap.Rooted.grounded {h : Heap} (hr : h.Rooted) : h.Grounded where
  head _ hi := head?_chain hi
  linked := hr.chain_linked
  distinct _ hi := hr.chain_nodup hi
  last := hr.getLast?_chain
  globals := hr.enclosing?_globals

/-- From `m` to `m'` a frame is made, for a call of `f` with arguments `vs`: inside the frame that
`f` was declared in, and with its parameters bound, each to the last argument given for it. -/
structure Session.Enters (κ : Nat → Float) (out : Output) (f : Closure) (vs : List Value)
    (m m' : Machine) : Prop where
  declared : Declared κ out f
  fresh : m'.scope = m.heap.frames.size
  inside : m'.heap.enclosing? m'.scope = some f.frame
  names : ∀ x, m'.heap.Binds m'.scope x ↔ ∃ p ∈ f.params, p.lexeme = x
  values : ∀ x, m'.heap.own? x m'.scope =
    ((f.params.zip vs).reverse.find? (·.1.lexeme == x)).map Prod.snd

namespace Session

variable {κ : Nat → Float} {out : Output}

theorem Occurs.enters {t : Token} {f : Closure} {vs : List Value} {m : Machine} {k : Nat}
    (hp : Occurs κ out ⟨.call t (.callable (.function f)) vs, m, k⟩)
    (harity : f.params.length = vs.length) :
    Enters κ out f vs m (m.calling.within f.frame (.ofArguments f.params vs)) := by
  obtain ⟨hframe, hdeclared⟩ := hp.sound.call rfl _ (List.mem_cons_self ..) f rfl
  have hvalues : ∀ x, (m.heap.push f.frame (.ofArguments f.params vs)).2.own? x
      m.heap.frames.size = ((f.params.zip vs).reverse.find? (·.1.lexeme == x)).map Prod.snd :=
    fun x => Heap.own?_push_self.trans (Bindings.lookup_ofArguments ..)
  refine ⟨hdeclared, rfl, ?_, fun x => ?_, hvalues⟩
  · refine Heap.enclosing?_of_outer? (Nat.lt_of_lt_of_le hframe Heap.Extends.push.size) ?_
    exact Heap.outer?_push_self.trans (congrArg some (Heap.chain_push_of_lt hframe).symm)
  · exact (congrArg (Option.isSome · = true) Heap.own?_push_self).to_iff.trans
      (Bindings.isSome_lookup_ofArguments harity)

/-- The frames of a session, at every point of every run of it. All frames go out to the global one.
Nothing is lost: frames stay, with the frames around them and the names they bind. No frame that is
there gains a name while an expression is evaluated, and while a statement that has been read is
executed only the current frame may gain one, the name that the statement declares. A call of a
function runs its body in a new frame inside the one that the function was declared in. -/
theorem frames_invariant (κ : Nat → Float) (out : Output) :
    (∀ s, Reached κ out s → s.machine.heap.Grounded) ∧
    (∀ p, Occurs κ out p → p.machine.heap.Grounded) ∧
    (∀ (s : Session) n src, (s.run n src).1.result ≠ .exhausted →
      s.machine.heap.Extends (s.run n src).2.machine.heap) ∧
    (∀ p q, LeadsOn p q → p.machine.heap.Extends q.machine.heap) ∧
    (∀ n e m r m', eval n e m = result r m' → m.heap.Extends m'.heap ∧
      ∀ i < m.heap.frames.size, ∀ x, m'.heap.Binds i x → m.heap.Binds i x) ∧
    (∀ (p : Parser) ss, p.parse.1 = .ok ss → ∀ s ∈ Stmt.allParts ss,
      ∀ n m r m', exec n s m = result r m' → m.heap.Extends m'.heap ∧
        ∀ i < m.heap.frames.size, ∀ x, m'.heap.Binds i x →
          m.heap.Binds i x ∨ i = m.scope ∧ s.declared? = some x) ∧
    (∀ t f vs m k q, Occurs κ out ⟨.call t (.callable (.function f)) vs, m, k⟩ →
      Leads ⟨.call t (.callable (.function f)) vs, m, k⟩ q →
      q.work = .execAll f.body ∧ Enters κ out f vs m q.machine ∧
      ∀ n r m', call (exec n) t (.callable (.function f)) vs m = result r m' →
        ∃ flow m₁, sequence (exec n) f.body q.machine = result flow m₁ ∧
          r = flow.map Flow.value ∧ m' = { m₁ with scope := m.scope, depth := m.depth }) := by
  refine ⟨fun s hs => ?_, fun p hp => ?_, fun s n src => run_kept, fun p q => LeadsOn.kept,
    fun n e m r m' h => ?_, fun p ss hparse s hs n m r m' h => ?_, fun t f vs m k q hp hq => ?_⟩
  · exact hs.sound.heap.grounded
  · exact hp.sound.machine.heap.grounded
  · exact ⟨(eval_outcome h).2.grows.toExtends, fun i hi x => eval_gains h hi⟩
  · have hwell := Stmt.allParts_wellFormed (Parser.parse_wellFormed hparse) hs
    exact ⟨(exec_outcome h).2.grows.toExtends, fun i hi x => exec_gains hwell h hi⟩
  · cases hq with
    | body harity hdepth => exact ⟨rfl, hp.enters harity, fun n r m' => call_runs harity hdepth⟩

/-- A function with two parameters of one name is called: in its frame, which is inside the global
one, the name means the second argument. -/
theorem frames_invariant_repeated :
    let κ : Nat → Float := fun _ => 0
    ∃ m k, Occurs κ .unlimited ⟨.execAll [], m, k⟩ ∧ m.scope = 1 ∧
      m.heap.enclosing? 1 = some Heap.globals ∧ m.heap.own? "a" 1 = some (.bool true) := by
  intro κ
  let f : Token := ⟨.identifier, "f", 1, 4, 1, .nil⟩
  let a : Token := ⟨.identifier, "a", 1, 6, 3, .nil⟩
  let b : Token := ⟨.identifier, "a", 1, 9, 5, .nil⟩
  let g : Token := ⟨.identifier, "f", 1, 15, 9, .nil⟩
  let paren : Token := ⟨.rightParen, ")", 1, 26, 14, .nil⟩
  let arguments : List Expr := [.literal .nil, .literal (.bool true)]
  have hscan : scan "fun f(a, a) \x7b\x7d f(nil, true);" = ([⟨.kwFun, "fun", 1, 0, 0, .nil⟩, f,
      ⟨.leftParen, "(", 1, 5, 2, .nil⟩, a, ⟨.comma, ",", 1, 7, 4, .nil⟩, b,
      ⟨.rightParen, ")", 1, 10, 6, .nil⟩, ⟨.leftBrace, "\x7b", 1, 12, 7, .nil⟩,
      ⟨.rightBrace, "\x7d", 1, 13, 8, .nil⟩, g, ⟨.leftParen, "(", 1, 16, 10, .nil⟩,
      ⟨.kwNil, "nil", 1, 17, 11, .nil⟩, ⟨.comma, ",", 1, 20, 12, .nil⟩,
      ⟨.kwTrue, "true", 1, 22, 13, .bool true⟩, paren, ⟨.semicolon, ";", 1, 27, 15, .nil⟩,
      ⟨.eof, "", 1, 28, 16, .nil⟩], []) := by cbv
  have hparse : parseSource "fun f(a, a) \x7b\x7d f(nil, true);" =
      .ok [.function f [a, b] [], .expression (.call (.variable g) paren arguments)] := by
    rw [parseSource_eq_ok, hscan]
    exact ⟨rfl, rfl⟩
  let closure : Closure := ⟨0, f, [a, b], [], Heap.globals⟩
  let m : Machine := { Machine.start κ .unlimited with
    heap := Heap.start.define "f" (.callable (.function closure)) Heap.globals
    made := 1 }
  have hcallee : eval 1 (.variable g) m = .ok (.callable (.function closure)) m := rfl
  have hargs : arguments.mapM (eval 1) m = .ok [.nil, .bool true] m := rfl
  have hcall : Occurs κ .unlimited
      ⟨.call paren (.callable (.function closure)) [.nil, .bool true], m, 0⟩ :=
    (Reached.start.occurs hparse).leads (.tail (n := 1) rfl) |>.leads .head
      |>.leads .expression |>.leads (.called (n := 1) hcallee hargs)
  have hbody : Leads ⟨.call paren (.callable (.function closure)) [.nil, .bool true], m, 0⟩
      ⟨.execAll [], m.calling.within Heap.globals (.ofArguments [a, b] [.nil, .bool true]), 1⟩ :=
    .body rfl (by decide)
  obtain ⟨-, -, -, -, -, -, hcalls⟩ := frames_invariant κ .unlimited
  obtain ⟨-, henters, -⟩ := hcalls _ _ _ _ _ _ hcall hbody
  exact ⟨_, _, hcall.leads hbody, henters.fresh, henters.inside, henters.values "a"⟩

end Session
end Lox
