import Qsym.Instrument.Returning
import Qsym.Instrument.Settled

/-!
# Qsym.Instrument.Default

`analyzeDefault`, the instrumentation of instructions that have no handler of their own.
It goes through the operands and inserts calls that concretise them.

It **does not see the flags**: `GET_REG` returns from `analyzeConcretizeReg` if the full
register is not interesting, and the flags register is not, so that the branch that would
insert `instrumentConcretizeEflags` is never reached. And a 32-bit operand is cleared with
the upper half of its full register, of which no equation speaks.
-/

namespace Qsym

open Procedure

/-- An operand as `INS_Operand*` describes it. A memory operand is given with the bytes
it is at when the instruction runs. -/
inductive InsOperand (Reg : Type)
  | reg (r : Reg)
  | mem (reads writes : Bool) (addr : Addr) (size : Nat)
  | other

/-- An instruction: its operands, and the flags it writes. -/
structure Ins (Reg : Type) where
  operands : List (InsOperand Reg)
  flagsWritten : EflagSet

/-- The `IARG_*` of effective addresses and of sizes. -/
inductive IargType
  | memoryReadEa | memoryRead2Ea | memoryWriteEa | memoryReadSize | memoryWriteSize
  deriving DecidableEq, Repr

/-- A call that is inserted before an instruction. -/
inductive InsertedCall (Reg : Type)
  | concretizeReg (r : Reg)
  | concretizeMem (addrTy sizeTy : IargType)
  | concretizeEflags
  deriving DecidableEq

/-- What Pin passes for an `IARG_*` when the instruction runs. -/
abbrev Iargs := IargType → Nat

namespace Registers

variable {Reg : Type} [DecidableEq Reg] (P : Registers Reg)

/-- `GET_REG`. With `none` the function that it stands in returns. -/
def getReg (r : Reg) : Option Reg :=
  if P.isInterestingReg (P.regFullRegName r) then some r else none

def analyzeConcretizeReg (r : Reg) : List (InsertedCall Reg) :=
  match P.getReg r with
  | none => []
  | some r =>
      let fr := P.regFullRegName r
      if P.isInterestingReg fr then [.concretizeReg r]
      else if P.regIsFlags r then [.concretizeEflags]
      else []

end Registers

/-- `getMemoryType`, with the count that it leaves. -/
def getMemoryType (reads writes : Bool) (count : Nat) : Option (Nat × IargType × IargType) :=
  if reads then
    if count = 0 then some (count + 1, .memoryReadEa, .memoryReadSize)
    else if count = 1 then some (count, .memoryRead2Ea, .memoryReadSize)
    else none
  else if writes then some (count, .memoryWriteEa, .memoryWriteSize)
  else none

namespace Registers

variable {Reg : Type} [DecidableEq Reg] (P : Registers Reg)

/-- The loop of `analyzeDefault` over the operands. `none` is a failed assertion. -/
def analyzeOperands : Nat → List (InsOperand Reg) → Option (List (InsertedCall Reg))
  | _, [] => some []
  | count, .reg r :: ops => do
      let calls ← analyzeOperands count ops
      return P.analyzeConcretizeReg r ++ calls
  | count, .mem reads writes _ _ :: ops => do
      let (count, addrTy, sizeTy) ← getMemoryType reads writes count
      let calls ← analyzeOperands count ops
      return .concretizeMem addrTy sizeTy :: calls
  | count, .other :: ops => analyzeOperands count ops

def analyzeDefault (ins : Ins Reg) : Option (List (InsertedCall Reg)) :=
  P.analyzeOperands 0 ins.operands

end Registers

/-! ### The operands -/

namespace InsOperand

variable {Reg : Type}

/-- The bytes of an operand. -/
def places (T : Process Reg) : InsOperand Reg → List (Place Reg)
  | .reg r => (Operand.reg r).places T
  | .mem _ _ addr size => (Operand.mem addr size).places T
  | .other => []

/-- The operands that are concretised: registers with a shadow, and memory. -/
def tracked [DecidableEq Reg] (P : Registers Reg) : InsOperand Reg → List (Operand Reg)
  | .reg r => if P.isInterestingReg (P.regFullRegName r) then [.reg r] else []
  | .mem _ _ addr size => [.mem addr size]
  | .other => []

/-- The memory that an operand reads. -/
def readMem : InsOperand Reg → Option (Nat × Nat)
  | .mem true _ addr size => some (addr.toNat, size)
  | _ => none

end InsOperand

/-- What Pin documents of the values: an instruction reads up to two memory operands, of
one size, and they come in the order of the operands; it has one address to write to. -/
structure Iargs.Documented {Reg : Type} (args : Iargs) (ops : List (InsOperand Reg)) : Prop where
  reads : ops.filterMap InsOperand.readMem <+:
    [(args .memoryReadEa, args .memoryReadSize), (args .memoryRead2Ea, args .memoryReadSize)]
  writes : ∀ addr size, .mem false true addr size ∈ ops →
    addr.toNat = args .memoryWriteEa ∧ size = args .memoryWriteSize

/-- The interesting registers among the operands have cells. -/
def Ins.Tracked {Reg : Type} [DecidableEq Reg] (T : Process Reg) (ins : Ins Reg) : Prop :=
  ∀ r, .reg r ∈ ins.operands → T.pin.isInterestingReg (T.pin.regFullRegName r) = true →
    T.Tracked r

namespace Process

open Handler Stateful

variable {Reg : Type} [DecidableEq Reg] (T : Process Reg)

def runCall (args : Iargs) : InsertedCall Reg → Handler Reg Unit
  | .concretizeReg r => T.instrumentConcretizeReg r
  | .concretizeMem addrTy sizeTy =>
      T.instrumentConcretizeMem (BitVec.ofNat 64 (args addrTy)) (args sizeTy)
  | .concretizeEflags => instrumentConcretizeEflags

/-- The calls before one instruction, in the order they were inserted. -/
def runCalls (args : Iargs) : List (InsertedCall Reg) → Handler Reg Unit
  | [] => return ()
  | c :: cs => do
      T.runCall args c
      runCalls args cs

/-! ### What the calls do -/

/-- `concretizeReg` or `concretizeMem` -/
def concretize : Operand Reg → Handler Reg Unit
  | .reg r => T.concretizeReg r
  | .mem addr size => T.concretizeMem addr size

def concretizeAll : List (Operand Reg) → Handler Reg Unit
  | [] => return ()
  | o :: os => do
      T.concretize o
      concretizeAll os

/-- No operand that comes later has a place that is symbolic and is cleared without an
equation, along with a 32-bit register. -/
def KeepsUpper : ShadowMap Reg → List (Operand Reg) → Prop
  | _, [] => True
  | v, o :: os =>
      (T.ReadsNull v o → KeepsUpper (clear v (o.places T)) os) ∧
      (¬ T.ReadsNull v o →
        (∀ k ∈ o.dropped T, k ∉ o.places T → Symbolic v k → ∀ o' ∈ os, k ∉ o'.places T) ∧
          KeepsUpper (clear v (o.dropped T)) os)

/-- The fallback is sound for an instruction: no operand has an expression left, what was
symbolic is settled, and no flag that the instruction writes is valid. -/
structure DefaultSound (ins : Ins Reg) (s s' : Shadow) (l : List (Request Reg)) : Prop where
  empty : ∀ op ∈ ins.operands, ∀ k ∈ op.places T, T.peek s' k = none
  recorded : ∀ op ∈ ins.operands, ∀ k ∈ op.places T,
    Symbolic (T.peek s) k → T.Settled (T.peek s) l k
  flags : s'.eflags.validSet &&& ins.flagsWritten = 0

/-- What a run of `concretizeAll` leaves and writes. -/
structure AllConcretized (s : Shadow) (os : List (Operand Reg)) (s' : Shadow)
    (l : List (Request Reg)) : Prop where
  eflags : s'.eflags = s.eflags
  kept : ∀ k, T.peek s' k = none ∨ T.peek s' k = T.peek s k
  empty : ∀ o ∈ os, ∀ k ∈ o.places T, T.peek s' k = none
  requests : ∀ q ∈ l, ∃ o ∈ os, ∃ e, q = .addValue o e (o.value T) ∧
    ∃ k ∈ o.places T, T.peek s k ≠ none
  settled_iff : (∀ o ∈ os, ∀ k ∈ o.places T, Symbolic (T.peek s) k → T.Settled (T.peek s) l k) ↔
    T.KeepsUpper (T.peek s) os

/-! ### Concretisation, one operand after the other -/

section

variable {T} {σ : Session} {ok : MethodCall → Prop} {s s₁ s' : Shadow} {o : Operand Reg}
variable {os : List (Operand Reg)} {v : ShadowMap Reg} {l l₁ : List (Request Reg)} {k : Place Reg}

/-- What one operand does, as seen by those after it. -/
theorem Concretized.step (hP : T.pin.Documented) (h : T.Concretized s o s₁ l₁)
    (os : List (Operand Reg)) : ∃ ks, T.Cleared s (· ∈ ks) s₁ ∧ o.places T ⊆ ks ∧
      (ks = o.places T ∨ ks = o.dropped T) ∧
      (∀ q ∈ l₁, ∃ e, q = .addValue o e (o.value T) ∧ ∃ k ∈ o.places T, T.peek s k ≠ none) ∧
      (∀ k ∈ o.places T, Symbolic (T.peek s) k → T.Settled (T.peek s) l₁ k) ∧
      (T.KeepsUpper (T.peek s) (o :: os) ↔
        (∀ k ∈ ks, k ∉ o.places T → Symbolic (T.peek s) k → ∀ o' ∈ os, k ∉ o'.places T) ∧
          T.KeepsUpper (T.peek s₁) os) := by
  by_cases hnull : T.ReadsNull (T.peek s) o
  · obtain ⟨rfl, hcleared⟩ := h.null hnull
    refine ⟨o.places T, hcleared, fun _ hk => hk, .inl rfl, nofun,
      fun k hk hsym => absurd hsym (hnull.not_symbolic hk), ?_⟩
    rw [hcleared.peek_eq, KeepsUpper]
    constructor
    · exact fun hkeeps => ⟨fun k hk hk' => absurd hk hk', hkeeps.1 hnull⟩
    · exact fun hkeeps => ⟨fun _ => hkeeps.2, fun hn => absurd hnull hn⟩
  · obtain ⟨⟨e, rfl, hfix⟩, hcleared⟩ := h.equation hnull
    refine ⟨o.dropped T, hcleared, places_subset_dropped hP o, .inr rfl, ?_, fun k hk _ => ?_, ?_⟩
    · intro q hq
      refine ⟨e, List.mem_singleton.1 hq, ?_⟩
      by_contra hempty
      exact hnull (readsNull_of_empty fun k hk => by_contra fun hne => hempty ⟨k, hk, hne⟩)
    · exact hfix.settled (.inl rfl) hk (List.mem_singleton_self _)
    · rw [hcleared.peek_eq, KeepsUpper]
      constructor
      · exact fun hkeeps => hkeeps.2 hnull
      · exact fun hkeeps => ⟨fun hn => absurd hn hnull, fun _ => hkeeps⟩

omit [DecidableEq Reg] in
theorem Settled.exists_places (h : T.Settled v l k)
    (hl : ∀ q ∈ l, ∃ e, q = .addValue o e (o.value T)) : k ∈ o.places T := by
  obtain ⟨q, hq, o', e', hq', hk, -⟩ := h
  obtain ⟨e, rfl⟩ := hl q hq
  obtain heq | heq := hq'
  · cases heq
    exact hk
  · cases heq

theorem AllConcretized.nil : T.AllConcretized s [] s [] where
  eflags := rfl
  kept _ := .inr rfl
  empty := nofun
  requests := nofun
  settled_iff := ⟨fun _ => trivial, nofun⟩

theorem AllConcretized.cons (hP : T.pin.Documented) (h₁ : T.Concretized s o s₁ l₁)
    (h : T.AllConcretized s₁ os s' l) : T.AllConcretized s (o :: os) s' (l₁ ++ l) := by
  obtain ⟨ks, hcleared, hplaces, hks, hrequests, hsettled, hkeeps⟩ := h₁.step hP os
  have hkept (k : Place Reg) : T.peek s₁ k = none ∨ T.peek s₁ k = T.peek s k :=
    h₁.none_or_eq k
  have hrest (k : Place Reg) (hk : k ∉ ks) :
      T.Settled (T.peek s) (l₁ ++ l) k ↔ T.Settled (T.peek s₁) l k := by
    rw [settled_append]
    constructor
    · rintro (hfirst | htail)
      · exact absurd (hplaces (hfirst.exists_places fun q hq => (hrequests q hq).imp
          fun _ => And.left)) hk
      · exact htail.congr (hcleared.same k hk)
    · exact fun htail => .inr (htail.congr (hcleared.same k hk).symm)
  refine ⟨h.eflags.trans h₁.eflags, fun k => ?_, ?_, ?_, ?_⟩
  · obtain hnone | hsame := h.kept k
    · exact .inl hnone
    · rw [hsame]
      exact hkept k
  · intro o' ho' k hk
    obtain rfl | ho' := List.mem_cons.1 ho'
    · obtain hnone | hsame := h.kept k
      · exact hnone
      · exact hsame.trans (hcleared.empty k (hplaces hk))
    · exact h.empty o' ho' k hk
  · intro q hq
    obtain hq | hq := List.mem_append.1 hq
    · obtain ⟨e, he⟩ := hrequests q hq
      exact ⟨o, List.mem_cons_self, e, he⟩
    · obtain ⟨o', ho', e, he, k, hk, hne⟩ := h.requests q hq
      refine ⟨o', List.mem_cons_of_mem _ ho', e, he, k, hk, fun hnone => hne ?_⟩
      obtain hempty | hsame := hkept k
      · exact hempty
      · exact hsame.trans hnone
  · rw [hkeeps, ← h.settled_iff]
    constructor
    · refine fun hall => ⟨fun k hk hko hsym o' ho' hk' => ?_, fun o' ho' k hk' hsym => ?_⟩
      · -- an equation for `k` would be about an operand that has nothing left
        obtain rfl | rfl := hks
        · exact hko hk
        obtain hfirst | htail :=
          settled_append.1 (hall o' (List.mem_cons_of_mem _ ho') k hk' hsym)
        · exact hko (hfirst.exists_places fun q hq => (hrequests q hq).imp fun _ => And.left)
        · obtain ⟨q, hq, o₁, e₁, hq₁, hk₁, -⟩ := htail
          obtain ⟨o₂, -, e₂, rfl, k₂, hk₂, hne⟩ := h.requests q hq
          obtain heq | heq := hq₁
          · cases heq
            exact hne (hcleared.empty k₂ (dropped_of_mem_places hP hk hko hk₁ hk₂))
          · cases heq
      · have hk : k ∉ ks := by
          obtain ⟨e, he, -⟩ := hsym
          exact fun hk => nomatch he.symm.trans (hcleared.empty k hk)
        refine (hrest k hk).1 (hall o' (List.mem_cons_of_mem _ ho') k hk' ?_)
        simpa only [Symbolic, hcleared.same k hk] using hsym
    · rintro ⟨hupper, htail⟩ o' ho' k hk' hsym
      obtain rfl | ho' := List.mem_cons.1 ho'
      · exact (hsettled k hk' hsym).mono (List.subset_append_left _ _)
      · by_cases hko : k ∈ o.places T
        · exact (hsettled k hko hsym).mono (List.subset_append_left _ _)
        · have hk : k ∉ ks := fun hk => hupper k hk hko hsym o' ho' hk'
          refine (hrest k hk).2 (htail o' ho' k hk' ?_)
          simpa only [Symbolic, hcleared.same k hk] using hsym

theorem concretize_concretized (hP : T.pin.Documented)
    (hb : T.builder = SymbolicExprBuilder.chain) (hs : s.WellFormed) (o : Operand Reg) :
    Ensures (body σ) ok (T.concretize o) s fun _ s' l => T.Concretized s o s' l := by
  cases o with
  | reg r => exact concretizeReg_concretized hP hb hs r
  | mem addr size => exact concretizeMem_concretized hb hs addr size

theorem concretize_returns (hP : T.pin.Documented) (hb : T.builder = SymbolicExprBuilder.chain)
    (hs : s.WellFormed) (ho : T.Readable o) : Returns (body σ) ok (T.concretize o) s := by
  cases o with
  | reg r => exact concretizeReg_returns hP hb hs ho
  | mem addr size => exact concretizeMem_returns hb hs addr size

theorem concretizeAll_concretized (hP : T.pin.Documented)
    (hb : T.builder = SymbolicExprBuilder.chain) (os : List (Operand Reg)) (hs : s.WellFormed)
    (hos : ∀ o ∈ os, T.Readable o) :
    Achieves (body σ) ok (T.concretizeAll os) s fun _ s' l => T.AllConcretized s os s' l := by
  induction os generalizing s with
  | nil => exact .ret .nil
  | cons o os ih =>
      have hfirst : Achieves (body σ) ok (T.concretize o) s fun _ s' l => T.Concretized s o s' l :=
        (concretize_returns hP hb hs (hos o List.mem_cons_self)).achieves
          (concretize_concretized hP hb hs o)
      refine Achieves.bind hfirst fun _ s₁ l₁ h₁ => ?_
      have hrest := ih h₁.wellFormed fun o' ho' => hos o' (List.mem_cons_of_mem _ ho')
      exact Achieves.mono hrest fun _ _ _ h => h.cons hP h₁

end

/-! ### The inserted calls -/

section

variable {T} {σ : Session} {s s' : Shadow} {args : Iargs} {ops : List (InsOperand Reg)}
variable {calls : List (InsertedCall Reg)}

/-- The calls for the operands from one on concretise those that are tracked. `pending`
is what Pin has for the operands that are still to be read. -/
theorem runCalls_analyzeOperands {count : Nat} {pending : List (Nat × Nat)}
    (hpending : count = 0 ∧ pending = [(args .memoryReadEa, args .memoryReadSize),
        (args .memoryRead2Ea, args .memoryReadSize)] ∨
      count = 1 ∧ pending <+: [(args .memoryRead2Ea, args .memoryReadSize)])
    (hreads : ops.filterMap InsOperand.readMem <+: pending)
    (hwrites : ∀ addr size, .mem false true addr size ∈ ops →
      addr.toNat = args .memoryWriteEa ∧ size = args .memoryWriteSize)
    (hcalls : T.pin.analyzeOperands count ops = some calls) :
    T.runCalls args calls = T.concretizeAll (ops.flatMap (·.tracked T.pin)) := by
  induction ops generalizing count pending calls with
  | nil =>
      cases hcalls
      rfl
  | cons op ops ih =>
      have hwrites' (addr : Addr) (size : Nat) (h : .mem false true addr size ∈ ops) :=
        hwrites addr size (List.mem_cons_of_mem _ h)
      cases op with
      | other => exact ih hpending hreads hwrites' hcalls
      | reg r =>
          obtain ⟨rest, hrest, heq⟩ := Option.bind_eq_some_iff.1 hcalls
          obtain rfl := Option.some.inj heq
          have hrest := ih hpending hreads hwrites' hrest
          rw [List.flatMap_cons, InsOperand.tracked, Registers.analyzeConcretizeReg,
            Registers.getReg]
          by_cases hr : T.pin.isInterestingReg (T.pin.regFullRegName r) = true
          · simp only [hr, if_true]
            exact congrArg (T.concretizeReg r >>= fun _ => ·) hrest
          · simp only [hr, Bool.false_eq_true, if_false]
            exact hrest
      | mem reads writes addr size =>
          obtain ⟨⟨count', addrTy, sizeTy⟩, hty, hcalls⟩ := Option.bind_eq_some_iff.1 hcalls
          obtain ⟨rest, hrest, heq⟩ := Option.bind_eq_some_iff.1 hcalls
          obtain rfl := Option.some.inj heq
          have hcall (haddr : addr.toNat = args addrTy) (hsize : size = args sizeTy)
              (htail : T.runCalls args rest = T.concretizeAll (ops.flatMap (·.tracked T.pin))) :
              T.runCalls args (.concretizeMem addrTy sizeTy :: rest) =
                T.concretizeAll ((InsOperand.mem reads writes addr size :: ops).flatMap
                  (·.tracked T.pin)) := by
            rw [runCalls, runCall, instrumentConcretizeMem, ← haddr, ← hsize, BitVec.ofNat_toNat,
              BitVec.setWidth_eq, htail]
            rfl
          cases reads with
          | true =>
              have hreads : (addr.toNat, size) :: ops.filterMap InsOperand.readMem <+: pending :=
                hreads
              obtain ⟨rfl, rfl⟩ | ⟨rfl, htwo⟩ := hpending
              · cases hty
                obtain ⟨heq, htail⟩ := List.cons_prefix_cons.1 hreads
                obtain ⟨haddr, hsize⟩ := Prod.mk.inj heq
                exact hcall haddr hsize (ih (.inr ⟨rfl, List.prefix_refl _⟩) htail hwrites' hrest)
              · cases hty
                obtain ⟨heq, htail⟩ := List.cons_prefix_cons.1 (hreads.trans htwo)
                obtain ⟨haddr, hsize⟩ := Prod.mk.inj heq
                refine hcall haddr hsize (ih (.inr ⟨rfl, List.nil_prefix⟩) htail hwrites' hrest)
          | false =>
              have hreads : ops.filterMap InsOperand.readMem <+: pending := hreads
              cases writes with
              | false => cases hty
              | true =>
                  cases hty
                  obtain ⟨haddr, hsize⟩ := hwrites addr size List.mem_cons_self
                  exact hcall haddr hsize (ih hpending hreads hwrites' hrest)

/-- A register without a shadow holds nothing. -/
theorem peek_of_not_interesting {r : Reg} {k : Place Reg}
    (hr : T.pin.isInterestingReg (T.pin.regFullRegName r) = false)
    (hk : k ∈ (Operand.reg r).places T) : T.peek s k = none := by
  rw [places_reg, mem_regPlaces_iff] at hk
  obtain ⟨j, rfl, -⟩ := hk
  simp only [peek, Pin.peekByte]
  split
  next =>
      split
      next addr haddr =>
          have hmem := Pin.isInterestingReg_of_mem (Pin.mem_of_lookup haddr)
          cases hmem.symm.trans hr
      next => rfl
  next => rfl

/-- What holds of empty places holds of all operands if it holds of those tracked. -/
theorem forall_places_iff {p : Place Reg → Prop} (hp : ∀ k, T.peek s k = none → p k) :
    (∀ op ∈ ops, ∀ k ∈ op.places T, p k) ↔
      ∀ o ∈ ops.flatMap (·.tracked T.pin), ∀ k ∈ o.places T, p k := by
  have hone (o : Operand Reg) :
      (∀ k ∈ o.places T, p k) ↔ ∀ o' ∈ [o], ∀ k ∈ o'.places T, p k := by
    rw [List.forall_mem_singleton]
  have hop (op : InsOperand Reg) : (∀ k ∈ op.places T, p k) ↔
      ∀ o ∈ op.tracked T.pin, ∀ k ∈ o.places T, p k := by
    cases op with
    | other =>
        exact ⟨fun _ => fun _ h => absurd h List.not_mem_nil, fun _ => fun _ h => absurd h
          List.not_mem_nil⟩
    | mem reads writes addr size =>
        exact hone (.mem addr size)
    | reg r =>
        rw [InsOperand.tracked]
        split
        next => exact hone (.reg r)
        next hr =>
            refine ⟨fun _ => fun _ h => absurd h List.not_mem_nil, fun _ k hk => hp k ?_⟩
            exact peek_of_not_interesting (Bool.eq_false_iff.2 hr) hk
  simp only [List.mem_flatMap, forall_exists_index, and_imp, hop]
  exact ⟨fun h o op hop ho => h op hop o ho, fun h op hop o ho => h o op hop ho⟩

theorem readable_of_tracked {ins : Ins Reg} (h : ins.Tracked T) :
    ∀ o ∈ ins.operands.flatMap (·.tracked T.pin), T.Readable o := by
  intro o ho
  obtain ⟨op, hop, ho⟩ := List.mem_flatMap.1 ho
  cases op with
  | other => cases ho
  | mem reads writes addr size =>
      obtain rfl := List.mem_singleton.1 ho
      trivial
  | reg r =>
      rw [InsOperand.tracked] at ho
      split at ho
      next hr =>
          obtain rfl := List.mem_singleton.1 ho
          exact h r hop hr
      next => cases ho

/-- The calls run to their end, and the fallback is sound if no flag the instruction writes was
valid, and no symbolic upper half is lost on the way. -/
theorem analyzeDefault_sound_iff {ins : Ins Reg} (hP : T.pin.Documented)
    (hb : T.builder = SymbolicExprBuilder.chain) (hs : s.WellFormed) (hins : ins.Tracked T)
    (hargs : args.Documented ins.operands) (hcalls : T.pin.analyzeDefault ins = some calls) :
    Achieves (body σ) ok (T.runCalls args calls) s fun _ s' l =>
      T.DefaultSound ins s s' l ↔ s.eflags.validSet &&& ins.flagsWritten = 0 ∧
        T.KeepsUpper (T.peek s) (ins.operands.flatMap (·.tracked T.pin)) := by
  rw [runCalls_analyzeOperands (.inl ⟨rfl, rfl⟩) hargs.reads hargs.writes hcalls]
  refine Achieves.mono (concretizeAll_concretized hP hb _ hs (readable_of_tracked hins))
    fun _ s' l h => ?_
  have hrecorded : (∀ op ∈ ins.operands, ∀ k ∈ op.places T,
      Symbolic (T.peek s) k → T.Settled (T.peek s) l k) ↔ _ :=
    (forall_places_iff (s := s) fun k hk ⟨e, he, _⟩ => nomatch he.symm.trans hk).trans
      h.settled_iff
  constructor
  · exact fun hsound => ⟨h.eflags ▸ hsound.flags, hrecorded.1 hsound.recorded⟩
  · exact fun ⟨hflags, hupper⟩ => ⟨(forall_places_iff fun _ hk => hk).2 h.empty,
      hrecorded.2 hupper, h.eflags ▸ hflags⟩

end

open X86Reg (process registers registers_documented shadow shadow_wellFormed)

/-- An instruction on `AL` that writes no flag. -/
def onAl : Ins X86Reg where
  operands := [.reg .al]
  flagsWritten := 0

theorem analyzeDefault_sound_al : ∃ calls s' l w',
    registers.analyzeDefault onAl = some calls ∧
      Runs (body quietSession) (process.runCalls (fun _ => 0) calls (shadow [0]))
        (freshWorld 1) ((), s', l) w' ∧
      process.DefaultSound onAl (shadow [0]) s' l := by
  have hargs : Iargs.Documented (fun _ => 0) onAl.operands := ⟨List.nil_prefix, by simp [onAl]⟩
  have hins : onAl.Tracked process := by
    intro r hr _
    obtain rfl : r = .al := by simpa [onAl] using hr
    exact ⟨by decide, by decide⟩
  have h : Achieves (body quietSession) (fun _ => True)
      (process.runCalls (fun _ => 0) _) (shadow [0])
      fun _ s' l => process.DefaultSound onAl (shadow [0]) s' l ↔ _ :=
    analyzeDefault_sound_iff registers_documented rfl (shadow_wellFormed [0] .init) hins hargs rfl
  obtain ⟨⟨_, s', l⟩, w', hr, -, hiff⟩ := h (freshWorld 1) trivial fun _ _ => trivial
  refine ⟨_, s', l, w', rfl, hr, hiff.2 ⟨rfl, ?_⟩⟩
  exact ⟨fun _ => trivial, fun _ => ⟨fun _ _ _ _ => nofun, trivial⟩⟩

/-- `CLC`, whose only operand is the flags register. -/
def clc : Ins X86Reg where
  operands := [.reg .rflags]
  flagsWritten := Eflag.cf.mask

/-- After an addition, `CLC` leaves the carry of the addition valid. -/
theorem analyzeDefault_not_sound : ∃ s s' l w w',
    registers.analyzeDefault clc = some [] ∧ s.WellFormed ∧
      Runs (body quietSession) (process.runCalls (fun _ => 0) [] s) w ((), s', l) w' ∧
      ¬ process.DefaultSound clc s s' l := by
  let eflags := Eflags.init.set .add (some (.read 0)) (some (.read 0)) (some (.read 0))
  refine ⟨{ shadow [] with eflags }, _, _, freshWorld 1, _, by decide, shadow_wellFormed [] eflags,
    Runs.ret _ _, fun h => ?_⟩
  exact absurd h.flags (by decide)

end Process

end Qsym
