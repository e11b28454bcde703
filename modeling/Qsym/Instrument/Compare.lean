import Qsym.Instrument.Atomic
import Qsym.Instrument.Default

/-!
# Qsym.Instrument.Compare

The string comparisons `CMPS` and `SCAS`. The pointers are made concrete before anything is
read; then the flags are recorded that the difference of the two operands has, or are let go of
if neither operand depends on the input.
-/

namespace Qsym

open Procedure X86
open SymbolicExprBuilder (chain)

/-- The string comparisons. -/
inductive CompareForm (Reg : Type)
  | cmps (dstAddr srcAddr : Addr) (size : Nat)
  | scas (addr : Addr) (size : Nat)

namespace CompareForm

variable {Reg : Type} [DecidableEq Reg] (T : Process Reg)

def handler : CompareForm Reg → Handler Reg Unit
  | cmps dstAddr srcAddr size => T.instrumentCmps dstAddr srcAddr size
  | scas addr size => T.instrumentScas addr size

/-- The operands are read one after the other. -/
def operands : CompareForm Reg → Handler Reg (Option (Expr × Expr))
  | cmps dstAddr srcAddr size => T.getExprFromMemMem dstAddr srcAddr size
  | scas addr size => T.getExprFromRegAt (T.pin.getAx size) addr size

omit [DecidableEq Reg]

/-- The registers that point to the operands. -/
def pointers : CompareForm Reg → List (Operand Reg)
  | cmps .. => [.reg T.pin.regGsi, .reg T.pin.regGdi]
  | scas .. => [.reg T.pin.regGdi]

def dst : CompareForm Reg → Operand Reg
  | cmps dstAddr _ size => .mem dstAddr size
  | scas _ size => .reg (T.pin.getAx size)

def src : CompareForm Reg → Operand Reg
  | cmps _ srcAddr size => .mem srcAddr size
  | scas addr size => .mem addr size

/-- The operands have one size. -/
def Sized (form : CompareForm Reg) : Prop :=
  0 < form.src.size T ∧ form.src.size T = (form.dst T).size T

/-- The registers have cells. -/
def Ready (form : CompareForm Reg) : Prop :=
  (∀ o ∈ form.pointers T, T.Readable o) ∧ T.Readable (form.dst T)

end CompareForm

namespace Process

open Handler Stateful

variable {Reg : Type} [DecidableEq Reg] {T : Process Reg} {σ : Session} {s : Shadow}

section Handlers

variable (hP : T.pin.Documented) (hb : T.builder = chain) (hs : s.WellFormed)
include hP hb hs

/-- Two operands of one size, of which the second is in memory. -/
theorem compareForm_fetches (hv : T.Consistent σ.input (T.peek s)) {form : CompareForm Reg}
    (hsize : form.Sized T) :
    Fetches σ T (form.operands T) s [form.dst T, form.src] fun x =>
      Expresses ((form.dst T).size T * 8) ((form.dst T).bv T (T.peek s)) x.1 ∧
        Expresses ((form.dst T).size T * 8) (fun ρ => (form.src.bv T (T.peek s) ρ).setWidth _)
          x.2 := by
  have hpair : Fetches σ T (form.operands T) s [form.dst T, form.src]
      (PairOf T (T.peek s) (form.dst T) form.src) := by
    cases form with
    | cmps dstAddr srcAddr size =>
        exact (fetches_pair (get_gets hP hb (.mem dstAddr size))
          (get_gets hP hb (.mem srcAddr size)) (fixMemExpr_completes hb dstAddr hsize.1)
          (fixMemExpr_completes hb srcAddr hsize.1) (.refl hs) hv).mono fun _ _ _ h => ⟨h.1, h.2.2⟩
    | scas addr size =>
        exact (fetches_pair (get_gets hP hb (.reg _)) (get_gets hP hb (.mem addr size))
          (fixRegExpr_completes hP hb _) (fixMemExpr_completes hb addr hsize.1)
          (.refl hs) hv).mono fun _ _ _ h => ⟨h.1, h.2.2⟩
  exact hpair.mono fun x ⟨hd, hx⟩ => ⟨hd, hx.setWidth (congrArg (· * 8) hsize.2)⟩

theorem compareForm_returns {form : CompareForm Reg} (hsize : form.Sized T)
    (hready : form.Ready T) : Returns (body σ) exactly (form.operands T) s := by
  cases form with
  | cmps dstAddr srcAddr size =>
      refine pair_returns (getExprFromMem_returns hb hs dstAddr size) ?_
        (fun s₁ h₁ => getExprFromMem_returns hb h₁ srcAddr size)
        (fixMemExpr_builds hb dstAddr hsize.1) (fixMemExpr_builds hb srcAddr hsize.1)
      exact (getExprFromMem_reads hb hs dstAddr size).mono fun _ _ _ h => h.2.wellFormed
  | scas addr size =>
      refine pair_returns (getExprFromReg_returns hP hb hs hready.2) ?_
        (fun s₁ h₁ => getExprFromMem_returns hb h₁ addr size)
        (fixRegExpr_builds hP hb _) (fixMemExpr_builds hb addr hsize.1)
      exact (getExprFromReg_reads hP hb hs _).mono fun _ _ _ h => h.2.wellFormed

theorem compareOperands_compares (hv : T.Consistent σ.input (T.peek s)) {form : CompareForm Reg}
    (hsize : form.Sized T) (hready : form.Ready T) :
    Achieves (body σ) exactly (T.compareOperands (form.operands T)) s fun _ s' _ =>
      Compares σ T s s' [form.dst T, form.src] ((form.dst T).bv T (T.peek s))
        fun ρ => (form.src.bv T (T.peek s) ρ).setWidth _ := by
  have hn : 8 ≤ (form.dst T).size T * 8 := by
    have hpos := hsize.1
    rw [hsize.2] at hpos
    omega
  refine computing_achieves (compareForm_fetches hP hb hs hv hsize)
    (compareForm_returns hP hb hs hsize hready) (fun s₁ h₁ hidle => ?_) fun s₁ x h₁ ⟨hd, hx⟩ => ?_
  · exact Total.ret (h₁.compares_invalidate hidle.empty)
  · have hsub : Builds σ exactly (T.builder.createSub x.1 x.2) _ :=
      hb ▸ hd.binary_builds (k := .sub) nofun rfl hx
    exact Achieves.lift_bind hsub fun res hres => Total.ret (h₁.compares_set hn hres hd hx)

/-- One pointer is made concrete before the others. -/
theorem concretizeReg_bind {p : Handler Reg Unit} {r : Reg} {os : List (Operand Reg)}
    {Q : Shadow → Shadow → Prop} (hr : T.Tracked r) (hv : T.Consistent σ.input (T.peek s))
    (h : ∀ s₁ : Shadow, s₁.WellFormed → T.Consistent σ.input (T.peek s₁) →
      Achieves (body σ) exactly p s₁ fun _ s' l => ∃ s₂ asked rest, l = asked ++ rest ∧
        T.AllConcretized s₁ os s₂ asked ∧ Q s₂ s') :
    Achieves (body σ) exactly (do
      T.concretizeReg r
      p) s fun _ s' l => ∃ s₂ asked rest, l = asked ++ rest ∧
        T.AllConcretized s (.reg r :: os) s₂ asked ∧ Q s₂ s' := by
  refine ((concretizeReg_returns hP hb hs hr).achieves
    (concretizeReg_concretized hP hb hs r)).bind fun _ s₁ l₁ h₁ => ?_
  refine (h s₁ h₁.wellFormed (hv.of_kept h₁.none_or_eq)).mono fun _ s' l ⟨s₂, asked, rest, hl, hall,
    hQ⟩ => ⟨s₂, l₁ ++ asked, rest, ?_, hall.cons hP h₁, hQ⟩
  rw [hl, List.append_assoc]

/-- **`CMPS` and `SCAS`.** The solver is asked first for inputs that leave the pointers alone. The
flags are then those of the difference of what the operands hold, if one of them depends on the
input, and otherwise let go of. -/
theorem instrumentCompare_compares (hv : T.Consistent σ.input (T.peek s)) {form : CompareForm Reg}
    (hsize : form.Sized T) (hready : form.Ready T) :
    Achieves (body σ) exactly (form.handler T) s fun _ s' l => ∃ s₁ asked rest, l = asked ++ rest ∧
      T.AllConcretized s (form.pointers T) s₁ asked ∧
        Compares σ T s₁ s' [form.dst T, form.src] ((form.dst T).bv T (T.peek s₁))
          fun ρ => (form.src.bv T (T.peek s₁) ρ).setWidth _ := by
  have hcompare (s₁ : Shadow) (h₁ : s₁.WellFormed) (hv₁ : T.Consistent σ.input (T.peek s₁)) :
      Achieves (body σ) exactly (T.compareOperands (form.operands T)) s₁ fun _ s' l =>
        ∃ s₂ asked rest, l = asked ++ rest ∧ T.AllConcretized s₁ [] s₂ asked ∧
          Compares σ T s₂ s' [form.dst T, form.src] ((form.dst T).bv T (T.peek s₂))
            fun ρ => (form.src.bv T (T.peek s₂) ρ).setWidth _ :=
    (compareOperands_compares hP hb h₁ hv₁ hsize hready).mono fun _ s' l h =>
      ⟨s₁, [], l, rfl, .nil, h⟩
  cases form with
  | cmps dstAddr srcAddr size =>
      refine concretizeReg_bind hP hb hs (hready.1 _ List.mem_cons_self) hv fun s₁ h₁ hv₁ => ?_
      exact concretizeReg_bind hP hb h₁
        (hready.1 (.reg _) (List.mem_cons_of_mem _ List.mem_cons_self)) hv₁ hcompare
  | scas addr size =>
      exact concretizeReg_bind hP hb hs (hready.1 (.reg _) List.mem_cons_self) hv hcompare

end Handlers

end Process

end Qsym
