import Qsym.Builder.Condition
import Qsym.Instrument.Packed
import Qsym.Instrument.Undivided

/-!
# Qsym.Instrument.Align

**`PALIGNR`** is an extract of the concatenation of its operands. Up to an offset of 16 the
extract is in range. Above, it runs over the end of the destination: a destination that is
constant is folded, with zeros from above, and from one that depends on the input bits are asked
for that it does not have.
-/

namespace X86

variable {m n : Nat}

/-- The operands one above the other, shifted right by `off` bytes. -/
def palignr (off : Nat) (dst src : BitVec 128) : BitVec 128 :=
  ((dst ++ src) >>> (off * 8)).setWidth 128

theorem palignr_eq_extract (off : Nat) (dst src : BitVec 128) :
    palignr off dst src = (dst ++ src).extractLsb' (off * 8) 128 := by
  refine BitVec.eq_of_toNat_eq ?_
  rw [palignr, BitVec.toNat_setWidth, BitVec.toNat_ushiftRight, BitVec.extractLsb'_toNat]

/-- The bits above the lower operand are those of the upper one, with zeros from above. -/
theorem extractLsb'_append_above (c : BitVec m) (x : BitVec n) {i : Nat} (hi : n ≤ i) (b : Nat) :
    (c ++ x).extractLsb' i b = (c >>> (i - n)).setWidth b := by
  refine BitVec.eq_of_getLsbD_eq fun j hj => ?_
  simp only [BitVec.getLsbD_extractLsb', BitVec.getLsbD_append, BitVec.getLsbD_setWidth,
    BitVec.getLsbD_ushiftRight]
  simp [hj, show ¬ i + j < n by omega, show i + j - n = i - n + j by omega]

theorem extractLsb'_append_across (c : BitVec m) (x : BitVec n) {i : Nat} (hi : i < n) (k : Nat) :
    (c ++ x).extractLsb' i (k + (n - i)) = c.setWidth k ++ x.extractLsb' i (n - i) := by
  refine BitVec.eq_of_getLsbD_eq fun j hj => ?_
  simp only [BitVec.getLsbD_extractLsb', BitVec.getLsbD_append, BitVec.getLsbD_setWidth]
  by_cases hlow : j < n - i
  · simp [hlow, hj, show i + j < n by omega]
  · simp [hlow, hj, show ¬ i + j < n by omega, show j - (n - i) < k by omega,
      show i + j - n = j - (n - i) by omega]

end X86

namespace Qsym

open Procedure X86
open SymbolicExprBuilder (chain)

/-! ### What the builder makes of it -/

section Builder

variable {σ : Session} {ok : MethodCall → Prop} {e l r : Expr} {m n i b : Nat}

theorem palignrExpr_expresses {dst src : Input → BitVec 128} {eDst eSrc : Expr} {off : Nat}
    (hdst : Expresses 128 dst eDst) (hsrc : Expresses 128 src eSrc) (hoff : off ≤ 16) :
    Builds σ exactly (chain.palignrExpr eDst eSrc off 128)
      (Expresses 128 fun ρ => palignr off (dst ρ) (src ρ)) := by
  unfold ExprBuilder.palignrExpr
  refine Total.bind (hdst.concat_builds hsrc) fun e he => ?_
  refine Total.mono (he.extract_builds (i := off * 8) (by decide) (by omega)) fun e he => ?_
  exact he.congr fun ρ => (palignr_eq_extract off (dst ρ) (src ρ)).symm

/-- The highest part is a constant. -/
def Leads : Expr → Prop
  | .constant .. => True
  | .concat _ l _ => l.isConstant = true
  | _ => False

theorem leads_of_isConstant (h : e.isConstant = true) : Leads e := by
  cases e <;> trivial

/-- Constants are put together. -/
theorem concat_constants (ref ref' : Nat) (c : BitVec m) (v : BitVec n) :
    Builds σ ok (ExprBuilder.createConcat [.symbolic, .common, .constantFolding, .cache, .base]
        (.constant ref m c) (.constant ref' n v))
      fun e => ∃ ref'', e = .constant ref'' (m + n) (c ++ v) := by
  have hvalue : (c.setWidth (m + n) <<< n ||| v.setWidth (m + n)) = c ++ v := by
    refine BitVec.eq_of_toNat_eq ?_
    rw [Bits.toNat_setWidth_shiftLeft_or, BitVec.toNat_append,
      ← Nat.shiftLeft_add_eq_or_of_lt v.isLt, Nat.shiftLeft_eq]
  refine builds_create fun _ => builds_create fun _ => builds_create fun _ => ?_
  refine builds_create fun _ => builds_create fun _ => builds_create fun _ => ?_
  refine builds_makeShared (c := .constant (m + n)
    (c.setWidth (m + n) <<< n ||| v.setWidth (m + n)))
    rfl fun ref => ⟨ref, ?_⟩
  rw [hvalue]
  rfl

/-- Something else is put below a constant. -/
theorem concat_below (ref : Nat) (c : BitVec m) (hr : r.isConstant = false) :
    Builds σ ok (ExprBuilder.createConcat [.common, .constantFolding, .cache, .base]
      (.constant ref m c) r) Leads := by
  have hnode : Builds σ ok (ExprBuilder.createConcat [.cache, .base] (.constant ref m c) r)
      Leads := by
    refine (cache_node (c := .concat (.constant ref m c) r) rfl rfl nofun).mono fun e he => ?_
    obtain ⟨ref', rfl⟩ := he
    exact rfl
  refine builds_create fun _ => builds_create fun _ => ?_
  cases r with
  | constant => cases hr
  | _ => exact hnode

/-- What is put below a constant has it at the top. -/
theorem createConcat_leads (ref : Nat) (c : BitVec m) (e : Expr) :
    Builds σ ok (ExprBuilder.createConcat [.symbolic, .common, .constantFolding, .cache, .base]
      (.constant ref m c) e) Leads := by
  induction e generalizing m ref with
  | constant ref' n v =>
      refine (concat_constants ref ref' c v).mono fun e he => ?_
      obtain ⟨ref'', rfl⟩ := he
      trivial
  | concat ref' x y _ ih =>
      refine builds_create fun _ => ?_
      show Builds σ ok (SymbolicExprBuilder.createConcat
        [.symbolic, .common, .constantFolding, .cache, .base]
          [.common, .constantFolding, .cache, .base]
        (.constant ref m c) (.concat ref' x y)) _
      rw [SymbolicExprBuilder.createConcat]
      split
      next hx =>
          obtain ⟨ref₁, n, v, rfl⟩ := Expr.isConstant_iff.1 hx
          refine Total.bind (concat_constants ref ref₁ c v) fun lx hlx => ?_
          obtain ⟨ref₂, rfl⟩ := hlx
          exact ih ref₂ (c ++ v)
      next => exact concat_below ref c rfl
  | _ => exact builds_create fun _ => concat_below ref c rfl

/-- A constant stays at the top. -/
theorem Leads.concat (h : Leads e) (r : Expr) :
    Yields (body σ) ok (chain.createConcat e r) Leads := by
  refine Yields.call fun _ => ?_
  cases e with
  | constant ref m c => exact Yields.of_total (createConcat_leads ref c r)
  | concat ref x y =>
      obtain ⟨ref', n, c, rfl⟩ := Expr.isConstant_iff.1 h
      refine Yields.call fun _ => ?_
      exact Yields.bind (P := fun _ => True) (Yields.any _) fun yr _ =>
        Yields.of_total (createConcat_leads ref' c yr)
  | _ => exact h.elim

/-- A constant has zeros above its end. -/
theorem extract_constant (ref : Nat) (c : BitVec m) (i b : Nat) :
    Builds σ ok (ExprBuilder.createExtract SymbolicExprBuilder.common (.constant ref m c) i b)
      fun e => ∃ ref', e = .constant ref' b ((c >>> i).setWidth b) := by
  refine builds_create fun _ => ?_
  show Builds σ ok (CommonSimplifyExprBuilder.createExtractWhole [.constantFolding, .cache, .base]
    (.constant ref m c) i b) _
  unfold CommonSimplifyExprBuilder.createExtractWhole
  split
  next h =>
      obtain ⟨rfl, rfl⟩ := h
      refine .ret ⟨ref, ?_⟩
      simp [Expr.bits]
  next =>
      refine builds_create fun _ => builds_create fun _ => builds_create fun _ =>
        builds_create fun _ => ?_
      exact builds_makeShared (c := .constant b ((c >>> i).setWidth b)) rfl fun ref' => ⟨ref', rfl⟩

theorem extract_constant_denotes (ref : Nat) (c : BitVec m) (i : Nat) (hb : 0 < b) :
    Builds σ ok (ExprBuilder.createExtract SymbolicExprBuilder.common (.constant ref m c) i b)
      (Denotes (fun _ => True) b fun _ => (c >>> i).setWidth b) := by
  refine (extract_constant ref c i b).mono fun e he => ?_
  obtain ⟨ref', rfl⟩ := he
  exact ⟨Expr.isBV_constant hb ref' _, fun ρ _ => Expr.bv_constant ..⟩

/-- The lower part of the chain, where nothing is divided. -/
theorem common_sound : SoundOn (fun c => c.traps = false) σ ok (fun _ => True)
    SymbolicExprBuilder.common :=
  fun c ht hc => (((lower_refines σ _).on ok) c hc ht).mono fun _ h => h.agrees

/-- Bits that a constant at the top does not have are taken for zeros. -/
theorem Leads.extract_denotes {v : Input → BitVec n} (h : Leads e) (he : Expresses n v e)
    (hb : 0 < b) (hover : n < i + b) :
    Builds σ ok (ExprBuilder.createExtract SymbolicExprBuilder.common e i b)
      (Denotes (fun _ => True) b fun ρ => (v ρ).extractLsb' i b) := by
  cases e with
  | constant ref m c =>
      obtain rfl : m = n := he.isBV.bits
      refine (extract_constant_denotes ref c i hb).mono fun x hx => hx.congr fun ρ _ => ?_
      have hv : v ρ = c := (he.bv ρ trivial).symm.trans (Expr.bv_constant ..)
      refine BitVec.eq_of_toNat_eq ?_
      rw [hv, BitVec.toNat_setWidth, BitVec.toNat_ushiftRight, BitVec.extractLsb'_toNat]
  | concat ref l r =>
      obtain ⟨ref', N, c, rfl⟩ := Expr.isConstant_iff.1 h
      obtain rfl : N + r.bits = n := he.isBV.bits
      obtain ⟨hl, hr, -, hbool⟩ := he.isBV.wellSorted
      have hrBV : r.IsBV r.bits := ⟨hr, hbool, rfl⟩
      have hv (ρ : Input) : v ρ = c ++ r.bv ρ r.bits := by
        refine BitVec.eq_of_toNat_eq ?_
        rw [← he.bv ρ trivial, he.isBV.toNat_bv, BitVec.toNat_append,
          ← Nat.shiftLeft_add_eq_or_of_lt (r.bv ρ r.bits).isLt, Nat.shiftLeft_eq, hrBV.toNat_bv]
        rfl
      refine builds_create fun _ => ?_
      show Builds σ ok (CommonSimplifyExprBuilder.createExtract SymbolicExprBuilder.common
        [.constantFolding, .cache, .base] (.concat ref (.constant ref' N c) r) i b) _
      rw [CommonSimplifyExprBuilder.createExtract]
      split
      next habove =>
          refine (extract_constant_denotes ref' c (i - r.bits) hb).mono fun x hx =>
            hx.congr fun ρ _ => ?_
          rw [hv, extractLsb'_append_above c _ habove]
      next hin =>
          -- part of the bits are those of the lower operand
          obtain ⟨k, rfl⟩ : ∃ k, b = k + (r.bits - i) := ⟨b + i - r.bits, by omega⟩
          have hk : k + (r.bits - i) + i - r.bits = k := by omega
          have hlow : Denotes (fun _ => True) r.bits (fun ρ => r.bv ρ r.bits) r :=
            ⟨hrBV, fun _ _ => rfl⟩
          rw [if_neg (by omega), hk]
          show Builds σ ok (SymbolicExprBuilder.common.createExtract (.constant ref' N c)
            0 k >>= fun el =>
            SymbolicExprBuilder.common.createExtract r i (r.bits - i) >>= fun er =>
              SymbolicExprBuilder.common.createConcat el er) _
          refine Total.bind (extract_constant_denotes ref' c 0 (by omega)) fun el hel => ?_
          refine Total.bind (common_sound.extract rfl hlow (by omega) (by omega)) fun er her => ?_
          refine (common_sound.concat rfl hel her).mono fun x hx => hx.congr fun ρ _ => ?_
          rw [hv, extractLsb'_append_across c _ (by omega), BitVec.ushiftRight_zero]
  | _ => exact h.elim

theorem Leads.extract {v : Input → BitVec n} (h : Leads e) (he : Expresses n v e) (hi : 0 < i)
    (hb : 0 < b) : Builds σ exactly (chain.createExtract e i b)
      (Expresses b fun ρ => (v ρ).extractLsb' i b) := by
  by_cases hin : i + b ≤ n
  · exact he.extract_builds hb hin
  · refine builds_expresses he.trimmed (builds_create fun _ => builds_create fun _ => ?_)
    show Builds σ exactly (SymbolicExprBuilder.createExtract
      [.symbolic, .common, .constantFolding, .cache, .base] SymbolicExprBuilder.common e i b) _
    rw [SymbolicExprBuilder.createExtract, if_neg (by omega)]
    exact h.extract_denotes he hb (by omega)

/-- A destination with a constant at the top is shifted as it should be. -/
theorem palignrExpr_leads {dst src : Input → BitVec 128} {eDst eSrc : Expr} {off : Nat}
    (h : Leads eDst) (hdst : Expresses 128 dst eDst) (hsrc : Expresses 128 src eSrc)
    (hoff : 0 < off) : Builds σ exactly (chain.palignrExpr eDst eSrc off 128)
      (Expresses 128 fun ρ => palignr off (dst ρ) (src ρ)) := by
  unfold ExprBuilder.palignrExpr
  refine Total.bind (Total.yields (hdst.concat_builds hsrc) (h.concat eSrc)) fun e ⟨he, hled⟩ => ?_
  refine (hled.extract he (i := off * 8) (by omega) (by decide)).mono fun x hx =>
    hx.congr fun ρ => ?_
  exact (palignr_eq_extract off (dst ρ) (src ρ)).symm

/-! ### What bytes are put together to -/

/-- What is true at the top and stays true when something comes below. -/
theorem concatList_keeps {P : Expr → Prop}
    (hkeep : ∀ e, P e → ∀ r, Yields (body σ) ok (chain.createConcat e r) P)
    {es : List Expr} (h : P e) :
    Yields (body σ) ok (SymbolicExprBuilder.createConcatList chain e es) P := by
  induction es generalizing e with
  | nil => exact .ret h
  | cons x es ih => exact (hkeep e h x).bind fun e' he' => ih he'

/-- What a cell is read as. -/
def IsCell (x : Option Expr) (e : Expr) : Prop :=
  match x with
  | some y => e = y
  | none => e.isConstant = true

/-- The last cell is at the top. -/
theorem pushBytes_last {cells : List (Option Expr × BitVec 8)} (x : Option Expr) (v : BitVec 8)
    (es : List Expr) : Yields (body σ) ok (Cells.pushBytes chain (cells ++ [(x, v)]) es) fun xs =>
      ∃ e ys, xs = e :: ys ∧ IsCell x e := by
  induction cells generalizing es with
  | nil =>
      cases x with
      | some e => exact .ret ⟨e, es, rfl, rfl⟩
      | none =>
          refine Yields.bind (Yields.of_total (constant_node v (by decide))) fun e he => ?_
          obtain ⟨ref, rfl⟩ := he
          exact .ret ⟨_, es, rfl, rfl⟩
  | cons c cells ih =>
      obtain ⟨_ | e, u⟩ := c
      · exact Yields.bind (P := fun _ => True) (Yields.any _) fun e _ => ih (e :: es)
      · exact ih (e :: es)

/-! ### An input byte at the top -/

/-- The highest part is an input byte. -/
def Opens : Expr → Prop
  | .read _ | .concat _ (.read _) _ => True
  | _ => False

theorem concat_read (i : Nat) (r : Expr) :
    Builds σ ok (ExprBuilder.createConcat [.symbolic, .common, .constantFolding, .cache, .base]
      (.read i) r) fun e => ∃ ref, e = .concat ref (.read i) r :=
  have hnode : Builds σ ok (ExprBuilder.createConcat [.cache, .base] (.read i) r) fun e =>
      ∃ ref, e = .concat ref (.read i) r :=
    cache_node (c := .concat (.read i) r) rfl rfl nofun
  builds_create fun _ => builds_create fun _ => builds_create fun _ => hnode

theorem concat_opens (h : Opens e) (r : Expr) :
    Yields (body σ) ok (chain.createConcat e r) fun x => ∃ ref i y, x =
      .concat ref (.read i) y := by
  have hread (i : Nat) (y : Expr) : Yields (body σ) ok (ExprBuilder.createConcat
      [.symbolic, .common, .constantFolding, .cache, .base] (.read i) y)
      fun x => ∃ ref i y, x = .concat ref (.read i) y := by
    refine (Yields.of_total (concat_read i y)).mono fun x hx => ?_
    obtain ⟨ref, rfl⟩ := hx
    exact ⟨ref, i, y, rfl⟩
  refine Yields.call fun _ => ?_
  cases e with
  | read i => exact hread i r
  | concat ref x y =>
      cases x with
      | read i =>
          refine Yields.call fun _ => ?_
          exact Yields.bind (P := fun _ => True) (Yields.any _) fun yr _ => hread i yr
      | _ => exact h.elim
  | _ => exact h.elim

theorem Opens.concat (h : Opens e) (r : Expr) : Yields (body σ) ok (chain.createConcat e r) Opens :=
  (concat_opens h r).mono fun _ ⟨_, _, _, hx⟩ => hx ▸ trivial

/-- More bits are asked for than there are. -/
theorem extract_beyond_stops (hconst : e.isConstant = false) (hb : b ≠ e.bits)
    (hlt : e.bits < b + i) :
    Yields (body σ) ok (ExprBuilder.createExtract [.constantFolding, .cache, .base] e i b)
      fun _ => False := by
  have hbase : Yields (body σ) ok (ExprBuilder.createExtract [.cache, .base] e i b)
      fun _ => False := by
    refine cache_stops rfl ?_
    show Yields (body σ) ok (if b = e.bits then .ret e else Build.makeShared (.extract e i b)) _
    rw [if_neg hb, Build.makeShared, if_neg (by simpa [Call.asserted] using hlt)]
    exact .stop
  refine Yields.call fun _ => ?_
  cases e with
  | constant => cases hconst
  | _ => exact hbase

/-- The extract runs over the end of the input byte. -/
theorem extract_read_stops {ref j : Nat} (hbits : 8 + r.bits = 256) (hi : 128 < i) :
    Yields (body σ) ok (chain.createExtract (.concat ref (.read j) r) i 128) fun _ => False := by
  refine Yields.call fun _ => Yields.call fun _ => ?_
  show Yields (body σ) ok (SymbolicExprBuilder.createExtract
    [.symbolic, .common, .constantFolding, .cache, .base] [.common, .constantFolding, .cache, .base]
    (.concat ref (.read j) r) i 128) _
  rw [SymbolicExprBuilder.createExtract, if_neg (by omega)]
  refine Yields.call fun _ => ?_
  show Yields (body σ) ok (CommonSimplifyExprBuilder.createExtract
    [.common, .constantFolding, .cache, .base] [.constantFolding, .cache, .base]
    (.concat ref (.read j) r) i 128) _
  rw [CommonSimplifyExprBuilder.createExtract]
  by_cases hright : r.bits ≤ i
  · rw [if_pos hright]
    refine Yields.call fun _ => ?_
    show Yields (body σ) ok (CommonSimplifyExprBuilder.createExtractWhole
      [.constantFolding, .cache, .base]
      (.read j) _ 128) _
    rw [CommonSimplifyExprBuilder.createExtractWhole, if_neg (by simp [Expr.bits])]
    exact extract_beyond_stops rfl (by simp [Expr.bits]) (by simp only [Expr.bits]; omega)
  · rw [if_neg hright, if_neg (by omega), if_neg (by simp [Expr.isConstant]),
      CommonSimplifyExprBuilder.createExtractWhole, if_neg (by omega)]
    exact extract_beyond_stops rfl (by simp only [Expr.bits]; omega)
      (by simp only [Expr.bits]; omega)

/-- With an input byte at the top of the destination there is no result above an offset of 16. -/
theorem palignrExpr_stops {dst src : Input → BitVec 128} {eDst eSrc : Expr} {off : Nat}
    (h : Opens eDst) (hdst : Expresses 128 dst eDst) (hsrc : Expresses 128 src eSrc)
    (hoff : 16 < off) : Yields (body σ) exactly (chain.palignrExpr eDst eSrc off 128)
      fun _ => False := by
  refine Yields.bind ((Yields.of_total (hdst.concat_builds hsrc)).and (concat_opens h eSrc))
    fun e ⟨he, ref, i, y, heq⟩ => ?_
  subst heq
  exact extract_read_stops he.isBV.bits (by omega)

end Builder

/-! ### The handlers -/

namespace VectorLogicForm

variable {Reg : Type} [DecidableEq Reg] (T : Process Reg)

/-- The handlers of `PALIGNR`. -/
def palignr (off : Addr) : VectorLogicForm Reg → Handler Reg Unit
  | regReg dst src => T.instrumentPalignrReg dst src off
  | regMem dst m => T.instrumentPalignrMem dst m off

/-- The destination. -/
def dstReg (pair : VectorLogicForm Reg) : Reg :=
  pair.packForm.dst

/-- The operands have 128 bits. -/
def IsXmm (pair : VectorLogicForm Reg) : Prop :=
  T.pin.regSize pair.dstReg = 16 ∧ pair.src.size T = 16

variable (v : ShadowMap Reg) (pair : VectorLogicForm Reg) (ρ : Input)

def dst128 : BitVec 128 :=
  ((Operand.reg pair.dstReg).bv T v ρ).setWidth 128

def src128 : BitVec 128 :=
  (pair.src.bv T v ρ).setWidth 128

/-- What the machine leaves. -/
def aligned (off : Nat) : BitVec ((Operand.reg pair.dstReg).size T * 8) :=
  (X86.palignr off (pair.dst128 T v ρ) (pair.src128 T v ρ)).setWidth _

variable {T v pair}

omit [DecidableEq Reg] in
theorem depends_iff : pair.Depends T v ↔
    Process.Depends T v (.reg pair.dstReg) ∨ Process.Depends T v pair.src := by
  cases pair <;>
    simp [VectorLogicForm.Depends, Process.Depends, dst, dstReg, packForm, PackForm.dst]

end VectorLogicForm

namespace Process

open Handler Stateful

variable {Reg : Type} [DecidableEq Reg] {T : Process Reg} {σ : Session} {s s₁ : Shadow}
variable {pair : VectorLogicForm Reg} {v : ShadowMap Reg} {dst : Reg} {off : Addr}

/-- At the top of a register there is a constant: nothing of it depends on the input, or its
highest byte has no expression, or a constant. -/
def TopConstant (T : Process Reg) (v : ShadowMap Reg) (r : Reg) : Prop :=
  ¬ Depends T v (.reg r) ∨
    ∀ e, v ((Operand.reg r).place T (T.pin.regSize r - 1)) = some e → e.isConstant = true

/-- The source and the destination have been read. -/
def Gathered (T : Process Reg) (v : ShadowMap Reg) (pair : VectorLogicForm Reg)
    (x : Expr × Expr) : Prop :=
  Expresses 128 (pair.src128 T v) x.1 ∧ Expresses 128 (pair.dst128 T v) x.2 ∧
    pair.Depends T v ∧ (TopConstant T v pair.dstReg → Leads x.2)

/-- A register is read as an expression that has its highest byte at the top. -/
theorem getExprFromReg_keeps (hP : T.pin.Documented) (hb : T.builder = chain) {r : Reg}
    (hr : T.pin.regSize r = 16) {P : Expr → Prop}
    (hkeep : ∀ e, P e → ∀ r, Yields (body σ) exactly (chain.createConcat e r) P)
    (htop : ∀ e, IsCell (T.peek s ((Operand.reg r).place T 15)) e → P e) :
    Ensures (body σ) exactly (T.getExprFromReg r) s fun x _ _ => ∀ e, x = some e → P e := by
  have hread : Yields (body σ) exactly (T.pin.getExprFromReg T.builder s.regs T.context r) fun x =>
      ∀ e, x.1 = some e → P e := by
    unfold Pin.getExprFromReg
    cases haddr : T.pin.regToRegAddr r with
    | none => exact .stop
    | some addr =>
        obtain ⟨base, hbase, hbaseaddr⟩ := Pin.regToRegAddr_eq_some haddr
        have hsplit : Pin.regAddresses addr 16 = Pin.regAddresses addr 15 ++ [addr + 15] := rfl
        have hcell : T.peek s ((Operand.reg r).place T 15) = s.regs (addr + 15) := by
          have hview := hP.view_le r
          simp only [Operand.place, bytePlace, peek, Pin.peekByte, hbase]
          rw [if_pos (by omega)]
          congr 1
          omega
        rw [hcell] at htop
        simp only [hr]
        unfold Pin.getExprFromRegAddr
        split
        next hsym =>
            cases T.pin.regAddrToReg addr with
            | none => exact .stop
            | some full =>
                simp only [Cells.getExprs, if_pos hsym]
                rw [hb, hsplit, List.map_append]
                refine Yields.bind (pushBytes_last (s.regs (addr + 15)) _ []) fun xs hxs => ?_
                obtain ⟨e, ys, rfl, he⟩ := hxs
                refine Yields.bind (concatList_keeps hkeep (htop e he)) fun e' he' => ?_
                split
                next =>
                    refine Yields.bind (P := fun _ => True) (Yields.any _) fun _ _ => .ret ?_
                    rintro _ ⟨⟩
                next => exact .ret fun _ h => Option.some.inj h ▸ he'
        next =>
            refine .ret ?_
            rintro _ ⟨⟩
  exact (onRegs_ensures hread).mono fun _ _ _ h => h.2.2.2

/-- A constant at the top of a register. -/
theorem getExprFromReg_leads (hP : T.pin.Documented) (hb : T.builder = chain) {r : Reg}
    (hr : T.pin.regSize r = 16)
    (htop : ∀ e, T.peek s ((Operand.reg r).place T 15) = some e → e.isConstant = true) :
    Ensures (body σ) exactly (T.getExprFromReg r) s fun x _ _ => ∀ e, x = some e → Leads e := by
  refine getExprFromReg_keeps hP hb hr (fun e he r => he.concat r) fun e he =>
    leads_of_isConstant ?_
  cases hcell : T.peek s ((Operand.reg r).place T 15) with
  | none =>
      rw [hcell] at he
      exact he
  | some y =>
      rw [hcell] at he
      exact he ▸ htop y hcell

/-- An input byte at the top of a register. -/
theorem getExprFromReg_opens (hP : T.pin.Documented) (hb : T.builder = chain) {r : Reg}
    (hr : T.pin.regSize r = 16) {i : Nat}
    (htop : T.peek s ((Operand.reg r).place T 15) = some (.read i)) :
    Ensures (body σ) exactly (T.getExprFromReg r) s fun x _ _ => ∀ e, x = some e → Opens e := by
  refine getExprFromReg_keeps hP hb hr (fun e he r => he.concat r) fun e he => ?_
  rw [htop] at he
  exact he ▸ trivial

omit [DecidableEq Reg] in
theorem fixPair_gathers (hP : T.pin.Documented) (hb : T.builder = chain) (hxmm : pair.IsXmm T)
    (hv : T.Consistent σ.input v) {f : Option Expr → Build Expr}
    (hf : Completes σ T f pair.src) (hreturns : ∀ x, Builds σ exactly (f x) fun _ => True)
    {x y : Option Expr} (hx : T.Fetched v pair.src x) (hy : T.Fetched v (.reg pair.dstReg) y)
    (hxdep : x ≠ none → Depends T v pair.src) (hydep : y ≠ none → Depends T v (.reg pair.dstReg))
    (hyled : TopConstant T v pair.dstReg → ∀ e, y = some e → Leads e) :
    Builds σ exactly (fixPair x y f (T.fixRegExpr · pair.dstReg)) fun z => match z with
      | none => ¬ pair.Depends T v ∧ y = none
      | some a => Gathered T v pair a := by
  have hg : Completes σ T (T.fixRegExpr · pair.dstReg) (.reg pair.dstReg) :=
    fixRegExpr_completes hP hb pair.dstReg
  have hsecond : Yields (body σ) exactly (T.fixRegExpr y pair.dstReg) fun e =>
      TopConstant T v pair.dstReg → Leads e := by
    cases y with
    | some e => exact .ret fun htop => hyled htop e rfl
    | none =>
        unfold fixRegExpr getRegValueExpr
        rw [hb]
        refine (Yields.of_total (createConstant_node _
          (Nat.mul_pos (hP.size_pos pair.dstReg) (by decide)))).mono ?_
        rintro _ ⟨ref, rfl⟩
        exact fun _ => trivial
  have hboth (hne : x ≠ none ∨ y ≠ none) : Yields (body σ) exactly (do
      let e' ← f x
      let e ← T.fixRegExpr y pair.dstReg
      return some (e', e)) fun z => ∀ a, z = some a →
        (x ≠ none ∨ y ≠ none) ∧ (TopConstant T v pair.dstReg → Leads a.2) := by
    refine Yields.bind (P := fun _ => True) (Yields.any _) fun e' _ => hsecond.bind
      fun e he => .ret ?_
    rintro _ ⟨⟩
    exact ⟨hne, he⟩
  have hknown : Yields (body σ) exactly (fixPair x y f (T.fixRegExpr · pair.dstReg)) fun z =>
      ∀ a, z = some a →
      (x ≠ none ∨ y ≠ none) ∧ (TopConstant T v pair.dstReg → Leads a.2) := by
    unfold fixPair
    split
    next => exact .ret nofun
    next hnot => exact hboth (not_and_or.1 fun ⟨hx, hy⟩ => hnot hx hy)
  have hbuilds := fixPair_builds (x := x) (y := y) hreturns (fixRegExpr_builds hP hb pair.dstReg)
  refine (Total.yields (Total.yields hbuilds (fixPair_yields hf hg hv hx hy)) hknown).mono ?_
  intro z ⟨⟨_, hz⟩, hdep⟩
  cases z with
  | none =>
      obtain ⟨rfl, rfl⟩ := hz
      refine ⟨fun hdep => ?_, rfl⟩
      rcases VectorLogicForm.depends_iff.1 hdep with ⟨k, hk, hsym⟩ | ⟨k, hk, hsym⟩
      · exact hy k hk hsym
      · exact hx k hk hsym
  | some a =>
      obtain ⟨hsome, hled⟩ := hdep a rfl
      refine ⟨hz.1.setWidth (congrArg (· * 8) hxmm.2),
        hz.2.setWidth (congrArg (· * 8) hxmm.1), ?_, hled⟩
      exact VectorLogicForm.depends_iff.2 (hsome.symm.imp hydep hxdep)

section Handlers

variable (hP : T.pin.Documented) (hb : T.builder = chain) (hs : s.WellFormed)
  (hv : T.Consistent σ.input (T.peek s)) (hxmm : pair.IsXmm T)

omit [DecidableEq Reg] in
include hb hxmm in
/-- In range, or with a constant at the top of the destination, the expression is that of the
machine. -/
theorem Gathered.builds {a : Expr × Expr} (h : Gathered T v pair a)
    (hoff : off.toNat ≤ 16 ∨ TopConstant T v pair.dstReg) :
    Builds σ exactly (T.builder.palignrExpr a.2 a.1 off.toNat 128)
      (Expresses (T.pin.regSize pair.dstReg * 8) (pair.aligned T v · off.toNat)) := by
  obtain ⟨hsrc, hdst, -, hled⟩ := h
  have hsize : 128 = T.pin.regSize pair.dstReg * 8 := by rw [hxmm.1]
  have hbuilt : Builds σ exactly (T.builder.palignrExpr a.2 a.1 off.toNat 128)
      (Expresses 128 fun ρ => X86.palignr off.toNat (pair.dst128 T v ρ) (pair.src128 T v ρ)) := by
    rw [hb]
    by_cases hle : off.toNat ≤ 16
    · exact palignrExpr_expresses hdst hsrc hle
    · exact palignrExpr_leads (hled (hoff.resolve_left hle)) hdst hsrc (by omega)
  exact hbuilt.mono fun e he => he.setWidth hsize

include hP hb hxmm in
/-- What is read is computed with. -/
theorem gathered_computes {q : Handler Reg (Option (Expr × Expr))} {bits : Nat} (hbits : bits = 128)
    (hdst : T.Tracked pair.dstReg)
    (hq : Achieves (body σ) exactly q s₁ fun z s' _ => s'.WellFormed ∧ match z with
      | none => ¬ pair.Depends T v ∧ ∀ k ∈ (Operand.reg pair.dstReg).places T, T.peek s' k = none
      | some a => Gathered T v pair a)
    (hoff : off.toNat ≤ 16 ∨ TopConstant T v pair.dstReg) :
    Achieves (body σ) exactly (T.legacy q pair.dstReg fun x =>
        T.builder.palignrExpr x.2 x.1 off.toNat bits) s₁ fun _ s' _ => s'.WellFormed ∧
      Provides T (pair.Depends T v) (T.peek s') (.reg pair.dstReg)
        (pair.aligned T v · off.toNat) := by
  subst hbits
  refine hq.bind fun z s₂ _ ⟨h₂, hz⟩ => ?_
  cases z with
  | none => exact .ret ⟨h₂, .inl hz⟩
  | some a =>
      have hgathered : Gathered T v pair a := hz
      have hsize : T.pin.regSize pair.dstReg ≤ 2 ^ 64 := by
        rw [hxmm.1]
        decide
      refine Achieves.lift_bind (hgathered.builds hb hxmm hoff) fun e he => ?_
      have hset : Achieves (body σ) exactly (T.setExprToReg pair.dstReg (some e)) s₂ _ :=
        (setExprToReg_returns hP hb hdst he.isBV le_rfl).achieves
          ((set_wellFormed (d := .reg pair.dstReg) hP hb h₂ he).and
            (set_puts (o := .reg pair.dstReg) hP hb hsize he))
      refine hset.mono fun _ s' _ ⟨hs', _, hputs⟩ => ⟨hs', ?_⟩
      exact .inr ⟨hgathered.2.2.1, hputs.shows⟩

omit hs in
include hP hb in
/-- The destination is read, after the shadow has aged. -/
theorem dst_read (hxmm : T.pin.regSize dst = 16) (hdst : T.Tracked dst) (h₁ : T.Aged s s₁)
    (hv : T.Consistent σ.input (T.peek s)) :
    Achieves (body σ) exactly (T.getExprFromReg dst) s₁ fun y s₂ _ =>
      ((T.Aged s s₂ ∧ T.Fetched (T.peek s) (.reg dst) y ∧
        (y = none → T.Empty (T.peek s₂) [.reg dst]) ∧
        ∀ os, T.Empty (T.peek s₁) os → T.Empty (T.peek s₂) os) ∧
          (y ≠ none → Depends T (T.peek s) (.reg dst))) ∧
        (TopConstant T (T.peek s) dst → ∀ e, y = some e → Leads e) := by
  have hone : (Operand.reg dst).size T ≠ 1 := fun h => nomatch hxmm.symm.trans h
  have hread := read_after (getExprFromReg_returns hP hb h₁.wellFormed hdst)
      (get_gets hP hb (.reg dst))
    (get_attends hP hb hone) h₁ hv
  by_cases htop : TopConstant T (T.peek s) dst
  · rcases htop with hnot | htop
    · exact hread.mono fun y s₂ _ h => ⟨h, fun _ e he => absurd (h.2 (he ▸ nofun)) hnot⟩
    · rw [hxmm] at htop
      have hled := getExprFromReg_leads (σ := σ) hP hb hxmm (s := s₁) fun e he => by
        rcases h₁.fades ((Operand.reg dst).place T 15) with hsame | ⟨-, hnone⟩
        · exact htop e (hsame.symm.trans he)
        · exact nomatch hnone.symm.trans he
      exact (Total.yields hread hled).mono fun _ h => ⟨h.1, fun _ => h.2⟩
  · exact hread.mono fun y s₂ _ h => ⟨h, fun h => absurd h htop⟩

include hP hb hs hv hxmm in
theorem palignr_provides (hready : pair.Ready T)
    (hoff : off.toNat ≤ 16 ∨ TopConstant T (T.peek s) pair.dstReg) :
    Achieves (body σ) exactly (pair.palignr T off) s fun _ s' _ => s'.WellFormed ∧
      Provides T (pair.Depends T (T.peek s)) (T.peek s') (.reg pair.dstReg)
        (pair.aligned T (T.peek s) · off.toNat) := by
  have hsrcOne : pair.src.size T ≠ 1 := fun h => nomatch hxmm.2.symm.trans h
  cases pair with
  | regReg dst src =>
      refine (dst_read hP hb hxmm.1 hready.1 (.refl hs) hv).bind
        fun y s₁ _ ⟨⟨⟨h₁, hy, hempty, _⟩, hydep⟩, hyled⟩ => ?_
      refine (read_after (getExprFromReg_returns hP hb h₁.wellFormed hready.2)
        (get_gets hP hb (.reg src))
        (get_attends hP hb hsrcOne) h₁ hv).bind fun x s₂ _ ⟨⟨h₂, hx, _, hkeep⟩, hxdep⟩ => ?_
      refine gathered_computes hP hb hxmm (congrArg (· * 8) hxmm.1) hready.1 (Achieves.lift
        (fixPair_gathers hP hb hxmm hv (fixRegExpr_completes hP hb src)
          (fixRegExpr_builds hP hb src)
          hx hy hxdep hydep hyled) fun z hz => ⟨h₂.wellFormed, ?_⟩) hoff
      cases z with
      | none => exact ⟨hz.1, hkeep [.reg dst] (hempty hz.2) _ List.mem_cons_self⟩
      | some a => exact hz
  | regMem dst m =>
      have hm : m.size = 16 := hxmm.2
      refine gathered_computes hP hb hxmm (congrArg (· * 8) hm) hready.1 ?_ hoff
      refine ((makeAddrConcrete_returns hP hb hs hready.2).achieves
        (makeAddrConcrete_aged hP hb hs m)).bind fun _ s₁ _ h₁ => ?_
      refine (read_after (getExprFromMem_returns hb h₁.wellFormed m.addr m.size)
        (get_gets hP hb (.mem m.addr m.size)) (get_attends hP hb hsrcOne) h₁ hv).bind
          fun x s₂ _ ⟨⟨h₂, hx, _, _⟩, hxdep⟩ => ?_
      refine (dst_read hP hb hxmm.1 hready.1 h₂ hv).bind
        fun y s₃ _ ⟨⟨⟨h₃, hy, hempty, _⟩, hydep⟩, hyled⟩ => ?_
      refine Achieves.lift (fixPair_gathers hP hb hxmm hv
        (fixMemExpr_completes hb m.addr (by omega))
        (fixMemExpr_builds hb m.addr (by omega)) hx hy hxdep hydep hyled)
          fun z hz => ⟨h₃.wellFormed, ?_⟩
      cases z with
      | none => exact ⟨hz.1, hempty hz.2 _ List.mem_cons_self⟩
      | some a => exact hz

omit hs in
include hP hb in
/-- An input byte at the top of the destination is found there. -/
theorem dst_opens (hdst : T.pin.regSize dst = 16) (h₁ : T.Aged s s₁)
    (hv : T.Consistent σ.input (T.peek s)) {i : Nat}
    (htop : T.peek s ((Operand.reg dst).place T 15) = some (.read i)) :
    Ensures (body σ) exactly (T.getExprFromReg dst) s₁ fun y s₂ _ => T.Aged s s₂ ∧
      T.Fetched (T.peek s) (.reg dst) y ∧ ∃ e, y = some e ∧ Opens e := by
  have hsym : Symbolic (T.peek s) ((Operand.reg dst).place T 15) := 
    ⟨.read i, htop, by simp [Expr.getDeps]⟩
  have htop₁ : T.peek s₁ ((Operand.reg dst).place T 15) = some (.read i) := by
    rcases h₁.fades ((Operand.reg dst).place T 15) with hsame | ⟨hnot, -⟩
    · exact hsame.trans htop
    · exact absurd hsym hnot
  have hgets := (get_gets hP hb (.reg dst)).after h₁ hv
  refine (hgets.and (getExprFromReg_opens (σ := σ) hP hb hdst htop₁)).mono fun y s₂ _ h => ?_
  obtain ⟨⟨h₂, hy, -⟩, hopens⟩ := h
  cases y with
  | none =>
      exact absurd hsym (hy _ (Operand.mem_places_iff.2
        ⟨15, by rw [Operand.size, hdst]; decide, rfl⟩))
  | some e => exact ⟨h₂, hy, e, rfl, hopens e rfl⟩

variable (pair) in
omit hs hxmm in
include hP hb hv in
theorem fixPair_opens {f : Option Expr → Build Expr} (hf : Completes σ T f pair.src)
    {x y : Option Expr} (hx : T.Fetched (T.peek s) pair.src x)
    (hy : T.Fetched (T.peek s) (.reg pair.dstReg) y) (hopens : ∃ e, y = some e ∧ Opens e) :
    Yields (body σ) exactly (fixPair x y f (T.fixRegExpr · pair.dstReg)) fun z =>
      ∃ a, z = some a ∧ PairOf T (T.peek s) pair.src (.reg pair.dstReg) a ∧ Opens a.2 := by
  obtain ⟨e, rfl, he⟩ := hopens
  have hboth : Yields (body σ) exactly (do
      let e' ← f x
      let e ← T.fixRegExpr (some e) pair.dstReg
      return some (e', e)) fun z => ∃ a, z = some a ∧ Opens a.2 :=
    Yields.bind (P := fun _ => True) (Yields.any _) fun e' _ => .ret ⟨(e', e), rfl, he⟩
  have hshape : Yields (body σ) exactly (fixPair x (some e) f (T.fixRegExpr · pair.dstReg)) fun z =>
      ∃ a, z = some a ∧ Opens a.2 := by
    cases x <;> exact hboth
  refine ((fixPair_yields hf (fixRegExpr_completes hP hb pair.dstReg) hv hx hy).and hshape).mono ?_
  rintro _ ⟨hpair, a, rfl, ha⟩
  exact ⟨a, rfl, hpair, ha⟩

include hb hxmm in
/-- The extract asks for bits above the input byte. -/
theorem legacy_stops {q : Handler Reg (Option (Expr × Expr))} {bits : Nat} (hbits : bits = 128)
    (hq : Ensures (body σ) exactly q s₁ fun z _ _ =>
      ∃ a, z = some a ∧ PairOf T v pair.src (.reg pair.dstReg) a ∧ Opens a.2)
        (hoff : 16 < off.toNat) :
    Ensures (body σ) exactly (T.legacy q pair.dstReg fun x =>
      T.builder.palignrExpr x.2 x.1 off.toNat bits) s₁ fun _ _ _ => False := by
  subst hbits
  refine Ensures.bind hq fun z s₂ _ ⟨a, hz, ⟨hsrc, hdst⟩, ha⟩ => ?_
  subst hz
  have hbuild : Yields (body σ) exactly (T.builder.palignrExpr a.2 a.1 off.toNat 128)
      fun _ => False :=
    hb ▸ palignrExpr_stops ha (hdst.setWidth (congrArg (· * 8) hxmm.1))
      (hsrc.setWidth (congrArg (· * 8) hxmm.2)) hoff
  exact Ensures.lift_bind hbuild fun _ h => h.elim

include hP hb hs hv hxmm in
theorem palignr_stops {i : Nat} (hoff : 16 < off.toNat)
    (htop : T.peek s ((Operand.reg pair.dstReg).place T 15) = some (.read i)) :
    Ensures (body σ) exactly (pair.palignr T off) s fun _ _ _ => False := by
  cases pair with
  | regReg dst src =>
      refine (dst_opens hP hb hxmm.1 (.refl hs) hv htop).bind fun y s₁ _ ⟨h₁, hy, hopens⟩ => ?_
      refine ((get_gets hP hb (.reg src)).after h₁ hv).bind fun x s₂ _ ⟨_, hx, _⟩ => ?_
      exact legacy_stops hb hxmm (congrArg (· * 8) hxmm.1) (Ensures.lift
        (fixPair_opens (.regReg dst src) hP hb hv (fixRegExpr_completes hP hb src) hx hy hopens)
          fun _ h => h) hoff
  | regMem dst m =>
      have hm : m.size = 16 := hxmm.2
      refine legacy_stops (v := T.peek s) hb hxmm (congrArg (· * 8) hm) ?_ hoff
      refine Ensures.bind (makeAddrConcrete_aged hP hb hs m) fun _ s₁ _ h₁ => ?_
      refine ((get_gets hP hb (.mem m.addr m.size)).after h₁ hv).bind fun x s₂ _ ⟨h₂, hx, _⟩ => ?_
      refine (dst_opens hP hb hxmm.1 h₂ hv htop).bind fun y s₃ _ ⟨_, hy, hopens⟩ => ?_
      exact Ensures.lift (fixPair_opens (.regMem dst m) hP hb hv
        (fixMemExpr_completes hb m.addr (by omega))
        hx hy hopens) fun _ h => h

end Handlers

/-- What a `PALIGNR` is executed with. -/
structure AlignReady (T : Process Reg) (σ : Session) (s : Shadow) (pair : VectorLogicForm Reg) :
    Prop where
  documented : T.pin.Documented
  builder : T.builder = chain
  wellFormed : s.WellFormed
  consistent : T.Consistent σ.input (T.peek s)
  isXmm : pair.IsXmm T
  ready : pair.Ready T

theorem toNat_setWidth_imm (imm : BitVec 8) : (imm.setWidth 64).toNat = imm.toNat := by
  rw [BitVec.toNat_setWidth, Nat.mod_eq_of_lt (Nat.lt_of_lt_of_le imm.isLt (by decide))]

open X86Reg (process shadow)

/-- `PALIGNR XMM1, XMM0` -/
def palignrXmm : VectorLogicForm X86Reg :=
  .regReg .xmm1 .xmm0

/-- Nothing is divided in a register with input bytes. -/
theorem shadow_undivided (cells : List Nat) : (shadow cells).Undivided where
  regs := by
    intro a e he
    have he : (if a ∈ cells then some (Expr.read 0) else none) = some e := he
    split at he
    next =>
        cases he
        trivial
    next => cases he
  memory := fun a e he => nomatch (X86Reg.onePage_peek a).symm.trans he

theorem palignrXmm_safe (cells : List Nat) (off : Addr) (w : World) :
    Safe (body σ) exactly (palignrXmm.palignr process off (shadow cells)) w := by
  have hpair : Undivided (palignrXmm.palignr process off) (shadow cells) fun _ s' =>
      s'.Undivided := by
    refine (getExprFromReg_undivided (shadow_undivided cells) _).bind fun x s₁ ⟨hx, h₁⟩ => ?_
    refine (getExprFromReg_undivided h₁ _).bind fun y s₂ ⟨hy, h₂⟩ => ?_
    refine Undivided.lift_bind (fixPair_stays (fixRegExpr_stays hy _) (fixRegExpr_stays hx _))
      fun z hz => ?_
    cases z with
    | none => exact .ret h₂
    | some a =>
        obtain ⟨hsrc, hdst⟩ := hz a rfl
        have hbuild : Call.Stays (fun _ => True) False
            (process.builder.palignrExpr a.2 a.1 off.toNat (process.pin.regSize .xmm1 * 8)) :=
          Build.stays_create_bind.2 ⟨⟨hdst, hsrc⟩, fun e he => next_stays he⟩
        exact Undivided.lift_bind hbuild fun e he => setExprToReg_undivided h₂ he _
  exact hpair.safe w

theorem palignrXmm_ready (cells : List Nat) :
    AlignReady process quietSession (shadow cells) palignrXmm where
  documented := X86Reg.registers_documented
  builder := rfl
  wellFormed := X86Reg.shadow_init_wellFormed cells
  consistent := X86Reg.shadow_consistent cells
  isXmm := ⟨rfl, rfl⟩
  ready := ⟨X86Reg.tracked (by decide), X86Reg.tracked (by decide)⟩

end Process

end Qsym
