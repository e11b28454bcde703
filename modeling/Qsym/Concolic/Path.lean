import Qsym.Concolic.Watch
import Qsym.Shadow.Input

/-!
# Qsym.Concolic.Path

**Paths.** A program has read its input, and the tool watches it run. At every point what the
solver has recorded is the path: it holds of exactly the inputs from which the program shows the
same events (`sees_path_condition`). For each of these the shadow has the bytes of the machine
that the input leads to (`sees_shadow`). And at a jump that is found interesting, if some input on
the path takes the jump the other way, then the one test case that is put out is such an input
(`sees_turns`). -/

namespace Qsym

open Procedure Qsym.Expr X86
open SymbolicExprBuilder (chain)

/-- A call of the system has put the first `n` bytes of the input into a buffer. -/
def Machine.receive {Reg : Type} (M : Machine Reg) (addr : Addr) (n : Nat)
    (ρ : Input) : Machine Reg :=
  { M with
    bytes := fun k => match k with
      | .mem a => if (a - addr).toNat < n then ρ (a - addr).toNat else M.bytes k
      | .reg _ _ => M.bytes k }

theorem Machine.receive_mem {Reg : Type} (M : Machine Reg) (addr a : Addr) (n : Nat) (ρ : Input) :
    (M.receive addr n ρ).bytes (.mem a) =
      if (a - addr).toNat < n then ρ (a - addr).toNat else M.bytes (.mem a) :=
  rfl

/-- A condition that differs on two inputs is symbolic. -/
theorem Expr.isConcrete_of_truth_ne {e : Expr} {ρ ρ' : Input} (h : e.truth ρ ≠ e.truth ρ') :
    e.isConcrete = false := by
  by_contra hc
  have hsame := Expr.value_of_isConcrete (Bool.eq_true_of_not_eq_false hc) ρ ρ'
  exact h (by rw [Expr.truth, hsame, Expr.truth])

namespace InputMemory

/-- Within 32 bits the offsets of a file are the input bytes. -/
theorem received_index {mem : Memory} {addr a : Addr} {n : Nat} (hn : n < 2 ^ 32) :
    received mem 0 addr n a = if (a - addr).toNat < n then some (.read (a - addr).toNat)
      else mem.peek a := by
  unfold received
  split
  next hlt =>
      have hzero : (0 : Addr) + (a - addr) = a - addr := BitVec.zero_add _
      rw [index, hzero, BitVec.toNat_setWidth, Nat.mod_eq_of_lt (hlt.trans hn)]
  next => rfl

end InputMemory

namespace Watch

variable {Reg : Type} [DecidableEq Reg] (W : Watch Reg)

/-- The input has been read into a buffer, which `makeExpr` was told, and nothing else has been
done. -/
structure Starts (addr : Addr) (size : BitVec 32) (t : Tool) : Prop where
  inside : size.toInt.toNat ≤ W.session.inputs.length
  regs : ∀ a, t.shadow.regs a = none
  eflags : t.shadow.eflags = .init
  solver : ∃ out_dir bitmap file, t.solver = .new W.session.inputs out_dir bitmap file
  memory : ∃ (m m' : InputMemory) (w w' : World), (∀ a, m.memory.peek a = none) ∧ m.off_ = 0 ∧
    Runs (body W.session) (m.makeExpr W.process.builder addr size) w m' w' ∧
      t.shadow.memory = m'.memory

variable {W} {E : Input → Prop} {M : Machine Reg} {M' : Machine Reg}
  {t t' t₁ t₂ : Tool} {addr : Addr}
variable {size : BitVec 32} {events : List Event} {ρ : Input}

namespace Starts

variable (h : W.Starts addr size t)
include h

omit [DecidableEq Reg] in
theorem peek_mem (a : Addr) : t.shadow.memory.peek a =
    if (a - addr).toNat < size.toInt.toNat then some (.read (a - addr).toNat) else none := by
  obtain ⟨m, m', w, w', hnone, hoff, hrun, hmem⟩ := h.memory
  rw [W.builder_eq] at hrun
  have hpeek := (InputMemory.makeExpr_yields m addr size).result hrun
  have hsize := BitVec.toInt_lt (x := size)
  rw [hmem, hpeek.2 a, hoff, InputMemory.received_index (by omega), hnone]

theorem peek_reg (f : Reg) (i : Nat) : W.process.peek t.shadow (.reg f i) = none := by
  simp only [Process.peek, Pin.peekByte]
  split
  · split
    · exact h.regs _
    · rfl
  · rfl

/-- Then the tool keeps track of the program, whatever the input is. -/
theorem tracks : W.Tracks (fun _ => True) (fun ρ => M.receive addr size.toInt.toNat ρ) t where
  describes :=
    { input := trivial
      wellFormed := by
        refine ⟨fun a e he => ?_, fun a e he => ?_⟩
        · have he : t.shadow.regs a = some e := he
          rw [h.regs] at he
          cases he
        · have he : t.shadow.memory.peek a = some e := he
          rw [h.peek_mem] at he
          split at he
          · obtain rfl := Option.some.inj he
            exact ⟨trivial, Solver.isBV_read _⟩
          · cases he
      bytes := by
        intro ρ _ k
        cases k with
        | reg f i =>
            rw [h.peek_reg]
            rfl
        | mem a =>
            show Process.Stands _ (t.shadow.memory.peek a) _ _
            rw [h.peek_mem]
            split
            next hlt =>
                rw [Process.Stands, Machine.receive_mem, if_pos hlt]
                rfl
            next hlt =>
                rw [Process.Stands, Machine.receive_mem, Machine.receive_mem,
                  if_neg hlt, if_neg hlt]
      pointer := by
        intro k hk
        rw [Process.pointerPlaces, Process.places_reg, Process.mem_regPlaces_iff] at hk
        obtain ⟨j, rfl, -⟩ := hk
        exact h.peek_reg _ _
      flags := by
        refine ⟨[], h.eflags, .same ⟨List.forall_mem_nil _, fun _ _ => ⟨[], .nil⟩⟩ (fun f _ => ?_)
          fun _ _ _ _ => rfl⟩
        cases f <;> rfl }
  tame := by
    refine ⟨fun a e he => ?_, fun a e he => ?_, fun kind => ?_⟩
    · have he : t.shadow.regs a = some e := he
      rw [h.regs] at he
      cases he
    · have he : t.shadow.memory.peek a = some e := he
      rw [h.peek_mem] at he
      split at he
      next hlt =>
          obtain rfl := Option.some.inj he
          exact hlt.trans_le h.inside
      next => cases he
    · rw [h.eflags]
      exact ⟨by rintro _ ⟨⟩, by rintro _ ⟨⟩, by rintro _ ⟨⟩⟩
  records := by
    obtain ⟨out_dir, bitmap, file, hsolver⟩ := h.solver
    rw [hsolver]
    exact ⟨_, _, SolverState.records_new W.session out_dir bitmap file, fun _ _ => trivial,
      fun _ _ _ => trivial⟩

end Starts

end Watch

/-! ### A comparison and a jump -/

namespace CompareAndJump

/-- `CMP BYTE PTR [0], 5` -/
def compare : Instruction X86Reg :=
  .alu .cmp (.mem { base := .invalid, index := .invalid, disp := 0, scale := 1, size := 1 })
    (.imm 5)

/-- `JZ` -/
def jump : Instruction X86Reg :=
  .jcc .z false 0x400020

/-- A program that compares the first byte of the input, and the tool that watches it. -/
def watch : Watch X86Reg where
  process := X86Reg.process
  session := quietSession
  code pc :=
    if pc = 0x400000 then some (compare, 0x400008)
    else if pc = 0x400008 then some (jump, 0x40000a)
    else none
  z3 := (Z3.bruteForce 2).confine
  tracer := Campaign.oneImage
  fuel := 0
  documented := X86Reg.registers_documented
  points := ⟨rfl, rfl⟩
  builder_eq := rfl

/-- The program is about to run. -/
def machine : Machine X86Reg where
  bytes k := if k = .reg .rip 2 then 0x40 else 0
  flags _ := false

/-- The machine that has read the input. -/
abbrev reads (ρ : Input) : Machine X86Reg :=
  machine.receive 0 2 ρ

/-- Where the jump is. -/
abbrev compared : Machine X86Reg :=
  compare.exec watch.process (reads quietSession.input) 0x400008

/-- The shadow where the input lies in memory. -/
def shadow (m : InputMemory) : Shadow where
  regs _ := none
  memory := m.memory
  eflags := .init

/-- What a handler leaves behind. -/
abbrev Handled : Type :=
  Unit × Shadow × List (Request X86Reg)

/-- The input is read, and the instructions are handled. -/
def handlers : Build (InputMemory × Handled × Handled) := do
  let m ← InputMemory.makeExpr watch.process.builder ⟨Memory.onePage, 0⟩ 0 2
  let x ← compare.handler watch.process (reads quietSession.input) (shadow m)
  let y ← jump.handler watch.process compared x.2.1
  return (m, x, y)

/-- Only the jump makes a request, which is interesting. -/
theorem handlers_run : (handlers.run (exec (body quietSession) 60) (freshWorld 0)).map
    (fun x => (x.1.2.1.2.2.length, x.1.2.2.2.2.map fun q =>
      (q.searches, (q.asks Campaign.oneImage (.start "bitmap" none) false).map Prod.fst))) =
    some (0, [(false, some true)]) := by
  decide +kernel

theorem compare_fits : compare.Fits watch.process := by
  refine ⟨⟨by decide, fun r hr hvalid => absurd ?_ hvalid⟩, trivial⟩
  simp only [List.mem_cons, List.not_mem_nil, or_self, or_false] at hr
  exact hr

theorem code_compare (ρ : Input) :
    watch.code ((reads ρ).pc watch.process) = some (compare, 0x400008) := by
  have hpc : machine.pc watch.process = 0x400000 := by decide +kernel
  rw [show (reads ρ).pc watch.process = machine.pc watch.process from rfl, hpc]
  rfl

theorem code_jump : watch.code (compared.pc watch.process) = some (jump, 0x40000a) := by
  have hpc : compared.pc watch.process = 0x400008 := by decide +kernel
  rw [hpc]
  rfl

/-- The tool when the program is about to run. -/
abbrev start (m : InputMemory) (w : World) : Tool where
  shadow := shadow m
  solver := .new quietSession.inputs "out" "bitmap" none
  world := w

/-- The tool watches the comparison, and then the jump, which is interesting. -/
theorem watched : ∃ t t₁ t₂ : Tool, watch.Starts 0 2 t ∧
    t₁.solver.solver.saved = [] ∧
    watch.Handles (reads quietSession.input) compare t t₁ ∧
    watch.Handles compared jump t₁ t₂ ∧ t₂.solver.solver.last_interested_ = true := by
  obtain ⟨⟨⟨m, ⟨_, s₁, l₁⟩, _, s₂, l₂⟩, w₂⟩, hrun, hl⟩ := Option.map_eq_some_iff.1 handlers_run
  obtain ⟨hl₁, hl₂⟩ := Prod.mk.inj hl
  obtain rfl := List.eq_nil_of_length_eq_zero hl₁
  obtain ⟨q, rfl, hq⟩ := List.map_eq_singleton_iff.1 hl₂
  obtain ⟨hplain, hasked⟩ := Prod.mk.inj hq
  have hruns : Runs (body quietSession) handlers (freshWorld 0) _ w₂ := ⟨60, hrun⟩
  obtain ⟨m', w, hmake, hruns⟩ := Runs.bind_iff.1 hruns
  obtain ⟨x, w₁, hcompare, hruns⟩ := Runs.bind_iff.1 hruns
  obtain ⟨y, w₂', hjump, hruns⟩ := Runs.bind_iff.1 hruns
  obtain ⟨⟨⟩, rfl⟩ := Runs.ret_iff.1 hruns
  have hstart : watch.Starts 0 2 (start m w) :=
    { inside := by decide
      regs := fun _ => rfl
      eflags := rfl
      solver := ⟨"out", "bitmap", none, rfl⟩
      memory := ⟨⟨Memory.onePage, 0⟩, m, freshWorld 0, w, X86Reg.onePage_peek, rfl, hmake, rfl⟩ }
  have hhandles : watch.Handles (reads quietSession.input) compare (start m w)
      ⟨s₁, (start m w).solver, w₁⟩ :=
    { fits := compare_fits
      clears := fun hwrite => by cases hwrite
      handles := ⟨[], w₁, hcompare, .ret _ _⟩ }
  -- the tool keeps track, so the solver takes the request
  obtain ⟨M', hM', htracks, -⟩ := (Watch.Sees.cons (code_compare _) hhandles .nil).tracks rfl
    (hstart.tracks (M := machine))
  have hhandler : Runs (body quietSession)
      (jump.handler watch.process (M' quietSession.input) s₁) w₁
      ((), s₂, [q]) w₂' := by
    rw [show M' quietSession.input = compared from hM']
    exact hjump
  obtain ⟨htruthful, -⟩ := Process.handler_steps (i := jump) htracks.describes watch.documented
      watch.points rfl
    htracks.tame trivial trivial 0x40000a hhandler
  obtain ⟨facts, nodes, hrecords, -⟩ := htracks.records
  have hz : watch.z3.Correct quietSession.inputs.length := (Z3.bruteForce_correct 2).confine
  have hq := htruthful q List.mem_cons_self
  have hb := chain_transparent quietSession
  have hserve : Builds quietSession anyCall
      ((start m w).solver.serve SymbolicExprBuilder.chain watch.z3
      Campaign.oneImage 0 q) _ :=
    (SolverState.serve_returns hb hz (fun _ => rfl) hq hplain hrecords).yields
      (SolverState.serve_steps hb hz hrecords hq)
  obtain ⟨S, w', hserved, -, -, hsteps⟩ := hserve w₂' trivial fun _ _ => trivial
  refine ⟨start m w, ⟨s₁, (start m w).solver, w₁⟩, ⟨s₂, S, w'⟩, hstart, rfl, hhandles, ?_, ?_⟩
  · exact ⟨trivial, trivial, [q], w₂', hjump, Runs.bind_iff.2 ⟨S, w', hserved, .ret _ _⟩⟩
  · have hasks : (q.asks Campaign.oneImage (.start "bitmap" none) false) = _ := hsteps.asks
    rw [hasks] at hasked
    exact Option.some.inj hasked

/-- The events of the inputs that have another first byte. -/
def passes : List Event :=
  [{ pc := 0x400000, address := some 0, taken := none },
    { pc := 0x400008, address := none, taken := some false }]

theorem sees_passes : ∃ t t' M', watch.Starts 0 2 t ∧
    watch.Sees (reads quietSession.input) t passes M' t' := by
  obtain ⟨t, t₁, t₂, hstart, -, hcompare, hjump, -⟩ := watched
  have hevents : [compare.event watch.process (reads quietSession.input),
      jump.event watch.process compared] =
      passes := by decide +kernel
  have hsees : watch.Sees (reads quietSession.input) t
      [compare.event watch.process (reads quietSession.input), jump.event watch.process compared] _
        t₂ :=
    .cons (code_compare _) hcompare (.cons code_jump hjump .nil)
  exact ⟨t, t₂, _, hstart, hevents ▸ hsees⟩

end CompareAndJump

namespace Watch

open CompareAndJump (watch machine reads jump compared passes watched sees_passes
  code_compare code_jump)

variable {Reg : Type} [DecidableEq Reg] {W : Watch Reg} {M : Machine Reg} {M' : Machine Reg}
  {t t' t₁ t₂ : Tool}
variable {addr : Addr} {size : BitVec 32} {events : List Event} {ρ : Input}

/-! ### What is recorded is the path -/

/-- **Path conditions.** What the solver has recorded holds of every input from which the program
shows the same events, whatever Z3 answers. If Z3 always decides, it holds of no others. -/
theorem sees_path_condition (hstart : W.Starts addr size t)
    (h : W.Sees (M.receive addr size.toInt.toNat W.session.input) t events M' t') :
    ∃ nodes, DependencyForest.Sorted Expr.getDeps t'.solver.solver.dep_forest_ nodes ∧
      (∀ ρ, W.Shows (M.receive addr size.toInt.toNat ρ) events →
        ∀ e ∈ nodes, Solver.NodeHolds t'.solver.ranges e ρ) ∧
      (W.z3.Correct W.session.inputs.length →
        ∀ ρ, (∀ e ∈ nodes, Solver.NodeHolds t'.solver.ranges e ρ) →
        W.Shows (M.receive addr size.toInt.toNat ρ) events) := by
  obtain ⟨M₁, -, htracks, -⟩ := h.tracks rfl (hstart.tracks (M := M))
  obtain ⟨facts, nodes, hrecords, hsound, hcomplete⟩ := htracks.records
  refine ⟨nodes, hrecords.sorted, fun ρ hρ e he => ?_, fun hz ρ hρ => ?_⟩
  · exact hrecords.holds (hsound ρ ⟨trivial, hρ⟩) (List.mem_append_left _ he)
  · exact (hcomplete hz ρ (hrecords.complete ρ fun e he => hρ e (by simpa using he))).2

theorem sees_path_condition_passes : ∃ t t' M' nodes, watch.Starts 0 2 t ∧
    watch.Sees (reads quietSession.input) t passes M' t' ∧
    DependencyForest.Sorted Expr.getDeps t'.solver.solver.dep_forest_ nodes ∧ ∀ ρ,
      (∀ e ∈ nodes, Solver.NodeHolds t'.solver.ranges e ρ) ↔ watch.Shows (reads ρ) passes := by
  obtain ⟨t, t', M', hstart, hsees⟩ := sees_passes
  obtain ⟨nodes, hsorted, hsound, hcomplete⟩ :=
    Watch.sees_path_condition (M := machine) hstart hsees
  refine ⟨t, t', M', nodes, hstart, hsees, hsorted, fun ρ => ?_⟩
  exact ⟨hcomplete (Z3.bruteForce_correct 2).confine ρ, hsound ρ⟩

/-- **The shadow.** At the end of a watched run, for every input from which the program shows the
same events: an expression has the value of the byte that the program then has at the place, and
where there is none the byte is the one of the watched run. -/
theorem sees_shadow (hstart : W.Starts addr size t)
    (h : W.Sees (M.receive addr size.toInt.toNat W.session.input) t events M' t')
    {M'' : Machine Reg}
    (hrun : (M.receive addr size.toInt.toNat ρ).run W.process W.code events.length =
      some (events, M''))
    (k : Place Reg) :
    (∀ e, W.process.peek t'.shadow k = some e → e.value ρ = (M''.bytes k).toNat) ∧
      (W.process.peek t'.shadow k = none → M''.bytes k = M'.bytes k) := by
  obtain ⟨M₁, hM', htracks, hfinal⟩ := h.tracks rfl (hstart.tracks (M := M))
  have hstands := htracks.describes.bytes ρ ⟨trivial, M'', hrun⟩ k
  rw [hfinal ρ trivial M'' hrun, ← hM']
  unfold Process.Stands at hstands
  constructor
  · intro e he
    rw [he] at hstands
    exact hstands
  · intro he
    rw [he] at hstands
    exact BitVec.eq_of_toNat_eq hstands

theorem sees_shadow_passes : ∃ t t' M' M'', watch.Starts 0 2 t ∧
    watch.Sees (reads quietSession.input) t passes M' t' ∧
    (reads fun _ => 7).run watch.process watch.code 2 = some (passes, M'') ∧
      ∀ k, (∀ e, watch.process.peek t'.shadow k = some e →
          e.value (fun _ => 7) = (M''.bytes k).toNat) ∧
        (watch.process.peek t'.shadow k = none → M''.bytes k = M'.bytes k) := by
  obtain ⟨t, t', M', hstart, hsees⟩ := sees_passes
  have hrun : ((reads fun _ => 7).run watch.process watch.code 2).map Prod.fst = some passes := by
    decide +kernel
  obtain ⟨⟨events, M''⟩, hrun, rfl⟩ := Option.map_eq_some_iff.1 hrun
  exact ⟨t, t', M', M'', hstart, hsees, hrun, Watch.sees_shadow (M := machine) hstart hsees hrun⟩

/-! ### Jumps are turned around -/

/-- A run of one more instruction. -/
theorem shows_concat {e : Event} : W.Shows M (events ++ [e]) ↔
    ∃ M₁ i next, M.run W.process W.code events.length = some (events, M₁) ∧
      W.code (M₁.pc W.process) = some (i, next) ∧ i.event W.process M₁ = e := by
  induction events generalizing M with
  | nil =>
      cases hcode : W.code (M.pc W.process) with
      | none => simp [Shows, Machine.run, hcode]
      | some x =>
          obtain ⟨i, next⟩ := x
          rw [List.nil_append, shows_cons hcode]
          simp [Shows, Machine.run, hcode]
  | cons e' events ih =>
      cases hcode : W.code (M.pc W.process) with
      | none => simp [Shows, Machine.run, hcode]
      | some x =>
          rw [List.cons_append, shows_cons hcode, ih]
          simp only [run_cons hcode, and_assoc, exists_and_left]

variable (W) in
/-- What a run shows at a jump that is taken as `taken` says. -/
abbrev jumps (M : Machine Reg) (taken : Bool) : Event where
  pc := M.pc W.process
  address := none
  taken := some taken

/-- Every input on the path is at the same jump, so a run that shows one more event takes it. -/
theorem Tracks.shows_jump_iff {machine : Input → Machine Reg} {start : Input → Machine Reg}
    (h : W.Tracks (fun ρ => True ∧ W.Shows (start ρ) events) machine t)
    (hfinal : ∀ ρ, True → ∀ M'', (start ρ).run W.process W.code events.length = some (events, M'') →
      M'' = machine ρ) {kind : JccKind} {inv : Bool} {target next : Addr}
    (hcode : W.code ((machine W.session.input).pc W.process) = some (.jcc kind inv target, next))
    (ρ : Input) (taken : Bool) :
    W.Shows (start ρ) (events ++ [W.jumps (machine W.session.input) taken]) ↔
      W.Shows (start ρ) events ∧ (machine ρ).taken kind inv = taken := by
  rw [shows_concat]
  constructor
  · rintro ⟨M₁, i, next', hrun, hcode', hevent⟩
    have hshows : W.Shows (start ρ) events := ⟨M₁, hrun⟩
    obtain rfl := hfinal ρ trivial M₁ hrun
    rw [h.describes.pc_eq ⟨trivial, hshows⟩, hcode] at hcode'
    obtain ⟨rfl, rfl⟩ := Prod.ext_iff.1 (Option.some.inj hcode')
    exact ⟨hshows, Option.some.inj (congrArg Event.taken hevent)⟩
  · rintro ⟨⟨M₁, hrun⟩, rfl⟩
    have hpc := h.describes.pc_eq (ρ := ρ) ⟨trivial, M₁, hrun⟩
    obtain rfl := hfinal ρ trivial M₁ hrun
    refine ⟨machine ρ, .jcc kind inv target, next, hrun, hpc ▸ hcode, ?_⟩
    rw [Instruction.event, hpc]
    rfl

/-- At a jump the solver serves no more than its condition, on the path. -/
theorem Tracks.jump_serves {machine : Input → Machine Reg} {E : Input → Prop}
    (h : W.Tracks E machine t₁)
    (hz : W.z3.Correct W.session.inputs.length) {kind : JccKind} {inv : Bool} {target : Addr}
    (hjump : W.Handles (machine W.session.input) (.jcc kind inv target) t₁ t₂) :
    ∃ x, FlagHistory.Tells W.session.input E machine kind inv x ∧ ∀ e, x = some e → ∃ pc facts,
      (∀ ρ, E ρ ↔ facts ρ) ∧ SolverState.Steps W.session W.z3 W.tracer facts t₁.solver
        (.addJcc e ((machine W.session.input).taken kind inv) pc : Request Reg) t₂.solver := by
  obtain ⟨requests, w, hhandler, hserve⟩ := hjump.handles
  obtain ⟨x, pc, ⟨htells, -⟩, rfl⟩ :=
    Process.jcc_asks h.describes W.builder_eq kind inv target _ _ _
    (Process.handler_safe h.tame t₁.world) hhandler
  -- a jump goes on at its own target, so where the next instruction is does not matter
  obtain ⟨htruthful, -, -, -⟩ :=
    Process.handler_steps h.describes W.documented W.points W.builder_eq h.tame
    hjump.fits hjump.clears target hhandler
  obtain ⟨facts, nodes, hrecords, hsound, hcomplete⟩ := h.records
  refine ⟨x, htells, ?_⟩
  rintro e rfl
  have hsteps : Yields (body W.session) anyCall
      (t₁.solver.serveAll W.process.builder W.z3 W.tracer W.fuel
        [.addJcc e ((machine W.session.input).taken kind inv) pc])
      (SolverState.Steps W.session W.z3 W.tracer facts t₁.solver
        (.addJcc e ((machine W.session.input).taken kind inv) pc : Request Reg)) :=
    (SolverState.serve_steps W.transparent hz hrecords (htruthful _ List.mem_cons_self)).bind
      fun _ hS => .ret hS
  exact ⟨pc, facts, fun ρ => ⟨hsound ρ, hcomplete hz ρ⟩, hsteps.result hserve⟩

/-- A jump that is found interesting is turned around, if some input on the path does so. -/
theorem Tracks.turns {machine : Input → Machine Reg} {E : Input → Prop} (h : W.Tracks E machine t₁)
    (hz : W.z3.Correct W.session.inputs.length) (hconf : W.z3.Confined)
    {kind : JccKind} {inv : Bool}
    {target : Addr} (hjump : W.Handles (machine W.session.input) (.jcc kind inv target) t₁ t₂)
    (hinteresting : t₂.solver.solver.last_interested_ = true)
    (hρ : E ρ) (hturned : (machine ρ).taken kind inv = !(machine W.session.input).taken kind inv) :
    ∃ case, t₂.solver.solver.saved = t₁.solver.solver.saved ++ [case] ∧
      case.values.length = W.session.inputs.length ∧ E (inputOf case.values) ∧
      (machine (inputOf case.values)).taken kind inv =
        !(machine W.session.input).taken kind inv := by
  obtain ⟨x, htells, hserves⟩ := h.jump_serves hz hjump
  cases x with
  | none => simp [htells ρ hρ] at hturned
  | some e =>
      obtain ⟨-, htruth⟩ := htells
      obtain ⟨pc, facts, hfacts, hsteps⟩ := hserves e rfl
      obtain ⟨new, hsaved, hgenerates⟩ := hsteps.generates
      have hflip : e.truth ρ = !(machine W.session.input).taken kind inv :=
        (htruth ρ hρ).trans hturned
      have hne : e.truth ρ ≠ e.truth W.session.input := by
        rw [hflip, htruth _ h.describes.input]
        simp
      have hnegates : Negates W.session.inputs.length facts
          (fun ρ => e.truth ρ = !(machine W.session.input).taken kind inv) new := by
        have hq := hgenerates hconf
        rwa [Request.Generates, if_pos ⟨Expr.isConcrete_of_truth_ne hne, hinteresting⟩] at hq
      obtain ⟨case, rfl, hlength, hcase, hother⟩ := hnegates.on_path ⟨ρ, (hfacts ρ).1 hρ, hflip⟩
      have hE := (hfacts _).2 hcase
      exact ⟨case, hsaved, hlength, hE, (htruth _ hE).symm.trans hother⟩

/-- **Directed testing.** The watched run has come to a jump, which is found interesting. If the
program shows the same events on some input and then takes the jump the other way, then one test
case is put out, and on it the program does so. -/
theorem sees_turns (hz : W.z3.Correct W.session.inputs.length) (hconf : W.z3.Confined)
    (hstart : W.Starts addr size t)
    (h : W.Sees (M.receive addr size.toInt.toNat W.session.input) t events M' t₁)
    {kind : JccKind} {inv : Bool} {target next : Addr}
    (hcode : W.code (M'.pc W.process) = some (.jcc kind inv target, next))
    (hjump : W.Handles M' (.jcc kind inv target) t₁ t₂)
    (hinteresting : t₂.solver.solver.last_interested_ = true)
    (hother : ∃ ρ, W.Shows (M.receive addr size.toInt.toNat ρ)
      (events ++ [W.jumps M' (!M'.taken kind inv)])) :
    ∃ case, t₂.solver.solver.saved = t₁.solver.solver.saved ++ [case] ∧
      case.values.length = W.session.inputs.length ∧
      W.Shows (M.receive addr size.toInt.toNat (inputOf case.values))
        (events ++ [W.jumps M' (!M'.taken kind inv)]) := by
  obtain ⟨machine, rfl, htracks, hfinal⟩ := h.tracks rfl (hstart.tracks (M := M))
  have hat := htracks.shows_jump_iff hfinal hcode
  obtain ⟨ρ, hρ⟩ := hother
  obtain ⟨hshows, hturned⟩ := (hat ρ _).1 hρ
  obtain ⟨case, hsaved, hlength, hE, hcase⟩ :=
    htracks.turns hz hconf hjump hinteresting ⟨trivial, hshows⟩ hturned
  exact ⟨case, hsaved, hlength, (hat _ _).2 ⟨hE.2, hcase⟩⟩

theorem sees_turns_jump : ∃ t t₁ t₂ case, watch.Starts 0 2 t ∧
    watch.Sees (reads quietSession.input) t
      [CompareAndJump.compare.event watch.process (reads quietSession.input)] compared t₁ ∧
    watch.Handles compared jump t₁ t₂ ∧ t₂.solver.solver.saved = [case] ∧
    watch.Shows (reads (inputOf case.values))
      ([CompareAndJump.compare.event watch.process (reads quietSession.input)] ++
        [watch.jumps compared true]) := by
  obtain ⟨t, t₁, t₂, hstart, hsaved, hcompare, hjump, hinteresting⟩ := watched
  have hrun : ((reads fun _ => 5).run watch.process watch.code 2).map Prod.fst =
      some ([CompareAndJump.compare.event watch.process (reads quietSession.input)] ++
        [watch.jumps compared true]) := by
    decide +kernel
  obtain ⟨⟨events, M''⟩, hrun, hevents⟩ := Option.map_eq_some_iff.1 hrun
  have htaken : (!compared.taken .z false) = true := by decide +kernel
  have hsees : watch.Sees (reads quietSession.input) t
      [CompareAndJump.compare.event watch.process (reads quietSession.input)] compared t₁ :=
    .cons (code_compare _) hcompare .nil
  have hturned := Watch.sees_turns (M := machine) (Z3.bruteForce_correct 2).confine
      (Z3.confine_confined _)
    hstart hsees code_jump hjump hinteresting
  rw [htaken] at hturned
  obtain rfl : events = _ := hevents
  obtain ⟨case, hcase, -, hshows⟩ := hturned ⟨fun _ => 5, M'', hrun⟩
  refine ⟨t, t₁, t₂, case, hstart, hsees, hjump, ?_, hshows⟩
  rw [hcase, hsaved]
  rfl

end Watch

end Qsym
