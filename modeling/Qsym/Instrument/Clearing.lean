import Qsym.Coverage.CallStackManager
import Qsym.Instrument.Returning
import Qsym.Instrument.Settled

/-!
# Qsym.Instrument.Clearing

The handlers that only **let go of expressions**: those of instructions whose results do not
depend on the input, of calls, whose return address is a constant, and of jumps through an
operand, which ask for all targets first. What a jump or a call lets go of is settled by what
it asks the solver. Basic blocks, calls and returns are told to the call stack, which has the
frames of the machine as long as returns meet their calls.
-/

namespace Qsym

open Procedure
open SymbolicExprBuilder (chain)

/-- The handlers that clear registers or memory. -/
inductive ClearForm (Reg : Type)
  | cpuid
  | rdtsc
  | rdtscp
  | reg (r : Reg)
  | mem (addr : Addr) (size : Nat)

namespace ClearForm

variable {Reg : Type} [DecidableEq Reg] (T : Process Reg)

def handler : ClearForm Reg → Handler Reg Unit
  | cpuid => T.instrumentCpuid
  | rdtsc => T.instrumentRdtsc
  | rdtscp => T.instrumentRdtscp
  | reg r => T.instrumentClrReg r
  | mem addr size => Process.instrumentClrMem addr size

/-- What the instruction gives other values. -/
def operands : ClearForm Reg → List (Operand Reg)
  | cpuid => [T.pin.regEax, T.pin.regEbx, T.pin.regEcx, T.pin.regEdx].map .reg
  | rdtsc => [T.pin.regEax, T.pin.regEdx].map .reg
  | rdtscp => [T.pin.regEax, T.pin.regEdx, T.pin.regEcx].map .reg
  | reg r => [.reg r]
  | mem addr size => [.mem addr size]

/-- The registers have cells. -/
def Ready (form : ClearForm Reg) : Prop :=
  ∀ o ∈ form.operands T, T.Readable o

end ClearForm

/-- An indirect jump: by a register, or by memory. -/
inductive JumpForm (Reg : Type)
  | reg (r : Reg)
  | mem (m : MemArg Reg)

namespace JumpForm

variable {Reg : Type}

def handler [DecidableEq Reg] (T : Process Reg) : JumpForm Reg → Handler Reg Unit
  | reg r => T.instrumentJmpReg r
  | mem m => T.instrumentJmpMem m

/-- What holds the target. -/
def operand : JumpForm Reg → Operand Reg
  | reg r => .reg r
  | mem m => .mem m.addr m.size

end JumpForm

namespace Process

open Handler Stateful

variable {Reg : Type} [DecidableEq Reg] {T : Process Reg} {σ : Session} {ok : MethodCall → Prop}
variable {s s₁ s' : Shadow} {o : Operand Reg} {os : List (Operand Reg)}

/-- Clear one operand. -/
def drop (T : Process Reg) : Operand Reg → Handler Reg Unit
  | .reg r => T.clearExprFromReg r
  | .mem addr size => clearExprFromMem addr size

/-- What clearing the operands leaves: the places of them, and the upper halves of 32-bit
registers, are empty, and nothing else has changed. -/
structure Drops (T : Process Reg) (s : Shadow) (os : List (Operand Reg)) (s' : Shadow) : Prop where
  eflags : s'.eflags = s.eflags
  cleared : T.Cleared s (fun k => ∃ o ∈ os, k ∈ o.dropped T) s'

theorem Drops.cons (h : T.Drops s [o] s₁) (h' : T.Drops s₁ os s') : T.Drops s (o :: os) s' where
  eflags := h'.eflags.trans h.eflags
  cleared := by
    refine ⟨fun k hk => ?_, fun k hk => ?_⟩
    · by_cases hos : ∃ o ∈ os, k ∈ o.dropped T
      · exact h'.cleared.empty k hos
      · obtain ⟨o', ho', hdropped⟩ := hk
        have hfirst : ∃ o' ∈ [o], k ∈ o'.dropped T := by
          rcases List.mem_cons.1 ho' with rfl | hrest
          · exact ⟨o', List.mem_singleton_self o', hdropped⟩
          · exact absurd ⟨o', hrest, hdropped⟩ hos
        exact (h'.cleared.same k hos).trans (h.cleared.empty k hfirst)
    · have hfirst : ¬ ∃ o' ∈ [o], k ∈ o'.dropped T := by
        rintro ⟨o', ho', hdropped⟩
        obtain rfl := List.mem_singleton.1 ho'
        exact hk ⟨o', List.mem_cons_self, hdropped⟩
      have hrest : ¬ ∃ o' ∈ os, k ∈ o'.dropped T := by
        rintro ⟨o', ho', hdropped⟩
        exact hk ⟨o', List.mem_cons_of_mem o ho', hdropped⟩
      exact (h'.cleared.same k hrest).trans (h.cleared.same k hfirst)

theorem drop_drops (hP : T.pin.Documented) (ho : T.Readable o) :
    Achieves (body σ) ok (T.drop o) s fun _ s' l => l = [] ∧ T.Drops s [o] s' := by
  have hone {s' : Shadow} (heq : s'.eflags = s.eflags) (h : T.Cleared s (· ∈ o.dropped T) s') :
      T.Drops s [o] s' := by
    refine ⟨heq, fun k hk => h.empty k ?_, fun k hk => h.same k fun hdropped => hk ?_⟩
    · obtain ⟨o', ho', hdropped⟩ := hk
      exact List.mem_singleton.1 ho' ▸ hdropped
    · exact ⟨o, List.mem_singleton_self o, hdropped⟩
  cases o with
  | reg r =>
      refine (clearExprFromReg_returns ho).achieves ?_
      exact (clearExprFromReg_cleared hP r).mono fun _ _ _ ⟨hl, heq, h, _⟩ => ⟨hl, hone heq h⟩
  | mem addr size =>
      refine (clearExprFromMem_returns addr size).achieves ?_
      exact (clearExprFromMem_cleared addr size).mono fun _ _ _ ⟨hl, heq, h, _⟩ => ⟨hl, hone heq h⟩

/-- One operand is cleared before the others. -/
theorem drop_bind {p : Handler Reg Unit} (hP : T.pin.Documented) (ho : T.Readable o)
    (h : ∀ s₁ : Shadow, Achieves (body σ) ok p s₁ fun _ s' l => l = [] ∧ T.Drops s₁ os s') :
    Achieves (body σ) ok (do
      T.drop o
      p) s fun _ s' l => l = [] ∧ T.Drops s (o :: os) s' := by
  refine (drop_drops hP ho).bind fun _ s₁ l ⟨hl, h₁⟩ => ?_
  exact (h s₁).mono fun _ s' l' ⟨hl', h'⟩ => ⟨by rw [hl, hl']; rfl, h₁.cons h'⟩

/-- **Instructions with other values.** In every state the handler returns, asks the solver
nothing, and lets go of the registers or the memory that the instruction writes. -/
theorem instrumentClear_drops (hP : T.pin.Documented) (form : ClearForm Reg)
    (hready : form.Ready T) :
    Achieves (body σ) ok (form.handler T) s fun _ s' l =>
      l = [] ∧ T.Drops s (form.operands T) s' := by
  have hlast (r : Reg) (hr : T.Tracked r) (s₁ : Shadow) :
      Achieves (body σ) ok (T.clearExprFromReg r) s₁ fun _ s' l =>
        l = [] ∧ T.Drops s₁ [.reg r] s' :=
    drop_drops (o := .reg r) hP hr
  have hreg (r : Reg) (hr : .reg r ∈ form.operands T) : T.Tracked r := hready (.reg r) hr
  cases form with
  | cpuid =>
      refine drop_bind (o := .reg _) hP (hreg _ (by simp [ClearForm.operands])) fun s₁ => ?_
      refine drop_bind (o := .reg _) hP (hreg _ (by simp [ClearForm.operands])) fun s₂ => ?_
      refine drop_bind (o := .reg _) hP (hreg _ (by simp [ClearForm.operands])) fun s₃ => ?_
      exact hlast _ (hreg _ (by simp [ClearForm.operands])) s₃
  | rdtsc =>
      refine drop_bind (o := .reg _) hP (hreg _ (by simp [ClearForm.operands])) fun s₁ => ?_
      exact hlast _ (hreg _ (by simp [ClearForm.operands])) s₁
  | rdtscp =>
      refine drop_bind (o := .reg _) hP (hreg _ (by simp [ClearForm.operands])) fun s₁ => ?_
      refine drop_bind (o := .reg _) hP (hreg _ (by simp [ClearForm.operands])) fun s₂ => ?_
      exact hlast _ (hreg _ (by simp [ClearForm.operands])) s₂
  | reg r => exact hlast r (hready _ List.mem_cons_self) s
  | mem addr size => exact drop_drops (o := .mem addr size) hP trivial

/-! ### Jumps and calls -/

/-- The operand is let go of, after the solver has been asked for its value: what depended on
the input there is settled by what was asked. -/
structure Settles (T : Process Reg) (s : Shadow) (o : Operand Reg) (s' : Shadow)
    (l : List (Request Reg)) : Prop where
  eflags : s'.eflags = s.eflags
  empty : ∀ k ∈ o.places T, T.peek s' k = none
  same : ∀ k, k ∉ o.dropped T → T.peek s' k = T.peek s k
  settled : ∀ k ∈ o.places T, Symbolic (T.peek s) k → T.Settled (T.peek s) l k

theorem Reads.settles (hP : T.pin.Documented) (hs : s.WellFormed) {x : Option Expr}
    (h : T.Reads s o x s₁) (ho : T.Readable o) (ask : Expr → Request Reg)
    (hask : ∀ e, (ask e).Equates o e (o.value T)) :
    Achieves (body σ) ok
      (match x with
        | none => return ()
        | some e => do
            request (ask e)
            T.drop o)
      s₁ fun _ s' l => T.Settles s o s' l := by
  cases x with
  | none =>
      have hcleared := h.cleared rfl
      refine .ret ⟨h.eflags, hcleared.empty, fun k hk => hcleared.same k ?_, fun k hk hsym => ?_⟩
      · exact mt (fun hk => places_subset_dropped hP o hk) hk
      · exact absurd hsym ((h.none_iff.1 rfl).not_symbolic hk)
  | some e =>
      have hs₁ : s₁ = s := h.same nofun
      rw [hs₁]
      refine Achieves.bind (P := fun _ s' l => s' = s ∧ l = [ask e]) (Total.ret ⟨rfl, rfl⟩)
        fun _ s₂ _ ⟨hs₂, hl⟩ => ?_
      rw [hs₂, hl]
      refine (drop_drops hP ho).mono fun _ s' _ ⟨_, hdrops⟩ => ⟨hdrops.eflags, fun k hk => ?_,
        fun k hk => hdrops.cleared.same k ?_, fun k hk _ => ?_⟩
      · exact hdrops.cleared.empty k ⟨o, List.mem_singleton_self o, places_subset_dropped hP o hk⟩
      · rintro ⟨o', ho', hdropped⟩
        exact hk (List.mem_singleton.1 ho' ▸ hdropped)
      · exact (h.fixes hs).settled (hask e) hk List.mem_cons_self

section Handlers

variable (hP : T.pin.Documented) (hb : T.builder = chain) (hs : s.WellFormed)
include hP hb hs

/-- **Indirect jumps.** The handler returns and lets go of the target. If the target depends on
the input then the solver has been asked for all of its values, with the one of the process, which
settles it. -/
theorem instrumentJmp_settles (form : JumpForm Reg) (ho : T.Readable form.operand) :
    Achieves (body σ) ok (form.handler T) s fun _ s' l => T.Settles s form.operand s' l := by
  cases form with
  | reg r =>
      refine ((getExprFromReg_returns hP hb hs ho).achieves
        (getExprFromReg_reads hP hb hs r)).bind fun x s₁ _ ⟨hl, hread⟩ => ?_
      have h : Achieves (body σ) ok _ s₁ _ :=
        hread.settles hP hs ho (fun e => .solveAll (.reg r) e (T.getRegValue r))
          fun e => .inr (by rw [value_reg])
      rw [hl]
      cases x <;> exact h
  | mem m =>
      refine ((getExprFromMem_returns hb hs m.addr m.size).achieves
        (getExprFromMem_reads hb hs m.addr m.size)).bind fun x s₁ _ ⟨hl, hread⟩ => ?_
      have h : Achieves (body σ) ok _ s₁ _ :=
        hread.settles (o := .mem m.addr m.size) hP hs trivial
          (fun e => .solveAll (.mem m.addr m.size) e (T.getMemValue m.addr m.size))
          fun e => .inr (by rw [value_mem])
      rw [hl]
      cases x <;> exact h

/-- **Calls.** The stack pointer is settled, and the return address is let go of. -/
theorem instrumentCall_settles (hsp : T.Tracked T.pin.regStackPtr) (addr : Addr) (size : Nat) :
    Achieves (body σ) ok (T.instrumentCall addr size) s fun _ s' l =>
      ∃ s₁, T.Settles s (.reg T.pin.regStackPtr) s₁ l ∧ T.Drops s₁ [.mem addr size] s' := by
  refine Achieves.bind (P := fun _ s₁ l => T.Settles s (.reg T.pin.regStackPtr) s₁ l) ?_
    fun _ s₁ l h₁ => ?_
  · refine ((getExprFromReg_returns hP hb hs hsp).achieves
      (getExprFromReg_reads hP hb hs T.pin.regStackPtr)).bind fun x s₁ _ ⟨hl, hread⟩ => ?_
    have h : Achieves (body σ) ok _ s₁ _ :=
      hread.settles (o := .reg T.pin.regStackPtr) hP hs hsp
        (fun e => .addValue (.reg T.pin.regStackPtr) e (T.getRegValue T.pin.regStackPtr))
        fun e => .inl (by rw [value_reg])
    rw [hl]
    cases x <;> exact h
  · refine (drop_drops (o := .mem addr size) hP trivial).mono fun _ s' l' ⟨hl', hdrops⟩ => ?_
    rw [hl', List.append_nil]
    exact ⟨s₁, h₁, hdrops⟩

end Handlers

end Process

/-! ### Basic blocks, calls and returns -/

/-- What a request is to the call stack. -/
def Request.event {Reg : Type} : Request Reg → Option CallStackManager.Event
  | .visitBasicBlock pc => some (.block (BitVec.ofNat 64 pc))
  | .visitCall addr => some (.call addr)
  | .visitRet addr => some (.ret addr)
  | _ => none

/-- The handlers that only tell the call stack. -/
inductive FlowForm
  | bbl
  | callAfter (retAddr : Addr)
  | ret (branchAddr : Addr)

namespace FlowForm

open Handler Stateful

variable {Reg : Type} (T : Process Reg)

def handler : FlowForm → Handler Reg Unit
  | bbl => T.instrumentBBL
  | callAfter retAddr => Process.instrumentCallAfter retAddr
  | ret branchAddr => Process.instrumentRet branchAddr

def event : FlowForm → CallStackManager.Event
  | bbl => .block (BitVec.ofNat 64 (T.getRegValue T.pin.regInstPtr))
  | callAfter retAddr => .call retAddr
  | ret branchAddr => .ret branchAddr

/-- The handlers of a run, each with the process that it is called in. -/
def handlers : List (Process Reg × FlowForm) → Handler Reg Unit
  | [] => return ()
  | (T, form) :: steps => do
      form.handler T
      handlers steps

variable {T} {σ : Session} {ok : MethodCall → Prop} {s : Shadow}

theorem handler_visits (form : FlowForm) :
    Achieves (body σ) ok (form.handler T) s fun _ s' l =>
      s' = s ∧ l.filterMap Request.event = [form.event T] := by
  cases form <;> exact Total.ret ⟨rfl, rfl⟩

theorem handlers_visit (steps : List (Process Reg × FlowForm)) :
    Achieves (body σ) ok (handlers steps) s fun _ s' l =>
      s' = s ∧ l.filterMap Request.event = steps.map fun x => x.2.event x.1 := by
  induction steps with
  | nil => exact .ret ⟨rfl, rfl⟩
  | cons x steps ih =>
      refine (handler_visits x.2).bind fun _ s₁ l ⟨hs₁, hl⟩ => ?_
      rw [hs₁]
      refine ih.mono fun _ s' l' ⟨hs', hl'⟩ => ⟨hs', ?_⟩
      rw [List.filterMap_append, hl, hl', List.map_cons, List.singleton_append]

/-- **Runs of blocks, calls and returns.** The shadow stays, and the call stack that serves the
requests has the frames of the calls that have not returned, if every return meets its call. -/
theorem handlers_frames {m : CallStackManager} (steps : List (Process Reg × FlowForm))
    (h : m.MetBy (steps.map fun x => x.2.event x.1)) :
    Achieves (body σ) ok (handlers steps) s fun _ s' l =>
      s' = s ∧ (m.run (l.filterMap Request.event)).frames = Frames.run m.frames
        ((steps.map fun x => x.2.event x.1).filterMap CallStackManager.Event.move?) := by
  refine (handlers_visit steps).mono fun _ s' l ⟨hs', hl⟩ => ⟨hs', ?_⟩
  rw [hl]
  exact CallStackManager.run_frames h

end FlowForm

end Qsym
