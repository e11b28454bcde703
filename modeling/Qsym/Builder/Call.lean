import Qsym.Expr.Basic
import Qsym.Procedure.Program

/-!
# Qsym.Builder.Call

What the expression builders are made of: the **calls** they answer, the builder
objects themselves, and the state they share.

A builder is a chain of layers linked by `next_`; as an object it is the list
that starts with its own layer. An unqualified `createX(…)` inside a layer is a
virtual call on that object, so it re-enters the chain at the same layer, while
`ExprBuilder::createX(…)` hands the call to `next_`. Both are a `MethodCall`,
and a method body is a `Program` over such calls: nothing here says that the
recursion ends.

C++ leaves the order in which arguments are built open; the model builds them
from left to right. The order is visible only in node identities, in the cache
and in which answer of `isInteresting` is consulted when.
-/

namespace Qsym

open Procedure

/-- The virtual methods of `ExprBuilder` with their arguments. Methods that differ
only in the kind they create are one constructor over the kind. -/
inductive Call
  | bool (value : Bool)
  | constant (bits : Nat) (value : BitVec bits)
  | read (off : Nat)
  | concat (l r : Expr)
  | extract (e : Expr) (index bits : Nat)
  | ext (kind : ExtKind) (e : Expr) (bits : Nat)
  | unary (kind : UnaryKind) (e : Expr)
  | binary (kind : BinaryKind) (l r : Expr)
  | compare (kind : CompareKind) (l r : Expr)
  | ite (cond t f : Expr)
  deriving DecidableEq, Repr

namespace Call

/-- The node the call asks for, allocated as `ref`. -/
def node (ref : Nat) : Call → Expr
  | bool b => .bool ref b
  | constant n v => .constant ref n v
  | read off => .read off
  | concat l r => .concat ref l r
  | extract e i b => .extract ref e i b
  | ext k e b => .ext ref k e b
  | unary k e => .unary ref k e
  | binary k l r => .binary ref k l r
  | compare k l r => .compare ref k l r
  | ite c t f => .ite ref c t f

/-- The plain node of the call, its identity left open. -/
abbrev plain (c : Call) : Expr :=
  c.node 0

/-- The assertions of the node's constructor. -/
def asserted : Call → Bool
  | extract e i b => b + i ≤ e.bits
  | binary _ l r | compare _ l r => l.bits = r.bits
  | ite _ t f => t.bits = f.bits
  | _ => true

end Call

/-- The classes derived from `ExprBuilder`. -/
inductive Layer
  | base | cache | constantFolding | common | symbolic | commutative | prune
  deriving DecidableEq, Repr

/-- A builder object: its own layer, then its `next_` chain. -/
abbrev ExprBuilder := List Layer

/-- A virtual call on a builder object. -/
structure MethodCall where
  builder : ExprBuilder
  call : Call

/-! ### The state of a session -/

/-- `ExprCache`: weak references to cached nodes and the order they came in. -/
structure ExprCache where
  set : List Expr
  queue : List Expr
  deriving DecidableEq, Repr

namespace ExprCache

/-- `kCacheSize` -/
def limit : Nat := 1024

variable (expired : Expr → Bool)

/-- `ExprCache::find`: a live node with the same metadata and children. -/
def find (cache : ExprCache) (e : Expr) : Option Expr :=
  cache.set.find? fun x => !expired x && x.equalShallowly e

/-- `ExprCache::cleanup` -/
def cleanup (cache : ExprCache) : ExprCache :=
  { cache with set := cache.set.filter fun x => !expired x }

/-- `ExprCache::shrink`. An expired item cannot be looked up, so its entry stays
for `cleanup`. -/
def shrink (cache : ExprCache) : ExprCache :=
  let cache :=
    if limit < cache.queue.length then
      match cache.queue with
      | [] => cache
      | item :: queue =>
          if expired item then { cache with queue }
          else
            { set := cache.set.eraseP fun x => !expired x && x.equalShallowly item
              queue }
    else cache
  if limit * 16 < cache.set.length then cache.cleanup expired else cache

/-- `ExprCache::insert` -/
def insert (cache : ExprCache) (e : Expr) : ExprCache :=
  let cache :=
    if (cache.find expired e).isSome then cache
    else { set := e :: cache.set, queue := cache.queue ++ [e] }
  cache.shrink expired

end ExprCache

/-- The state the builders share. `tick` counts the questions put to the
surroundings, whose answers are given by the `Session`. -/
structure World where
  /-- The next free node identity. -/
  nextRef : Nat
  cache : ExprCache
  tick : Nat

/-- What surrounds the builders during a run. -/
structure Session where
  /-- `Solver::inputs_` -/
  inputs : List (BitVec 8)
  /-- Which weak references are expired when question `tick` is put. -/
  expired : Nat → Expr → Bool
  /-- The answer of `g_call_stack_manager.isInteresting()` to question `tick`. -/
  isInteresting : Nat → Bool

/-- Surroundings that keep everything, with two zero bytes of input. -/
def quietSession : Session :=
  { inputs := [0, 0], expired := fun _ _ => false, isInteresting := fun _ => true }

/-- An empty cache; the identities below `nextRef` belong to the operands. -/
def freshWorld (nextRef : Nat) : World :=
  { nextRef, cache := { set := [], queue := [] }, tick := 0 }

/-- A builder method: calls to builders, over the shared state. -/
abbrev Build (α : Type) := Program MethodCall Expr World α

namespace Build

/-- Put a question to the surroundings. -/
def ask {α : Type} (k : World → Build α) : Build α :=
  .get fun w => .set { w with tick := w.tick + 1 } (k w)

/-- `std::make_shared` of the node of `c`, with the assertions of its constructor. -/
def makeShared (c : Call) : Build Expr :=
  if c.asserted then
    .get fun w => .set { w with nextRef := w.nextRef + 1 } (.ret (c.node w.nextRef))
  else .stop

end Build

namespace ExprBuilder

/-- The virtual call `b->createX(…)`. -/
def create (b : ExprBuilder) (c : Call) : Build Expr :=
  .call ⟨b, c⟩ .ret

variable (b : ExprBuilder)

abbrev createBool (value : Bool) : Build Expr := b.create (.bool value)
abbrev createConstant (value bits : Nat) : Build Expr :=
  b.create (.constant bits (BitVec.ofNat bits value))
abbrev createConcat (l r : Expr) : Build Expr := b.create (.concat l r)
abbrev createExtract (e : Expr) (index bits : Nat) : Build Expr :=
  b.create (.extract e index bits)
abbrev createSExt (e : Expr) (bits : Nat) : Build Expr := b.create (.ext .sext e bits)
abbrev createNeg (e : Expr) : Build Expr := b.create (.unary .neg e)
abbrev createLNot (e : Expr) : Build Expr := b.create (.unary .lnot e)
abbrev createAdd (l r : Expr) : Build Expr := b.create (.binary .add l r)
abbrev createSub (l r : Expr) : Build Expr := b.create (.binary .sub l r)
abbrev createMul (l r : Expr) : Build Expr := b.create (.binary .mul l r)
abbrev createUDiv (l r : Expr) : Build Expr := b.create (.binary .udiv l r)
abbrev createSDiv (l r : Expr) : Build Expr := b.create (.binary .sdiv l r)
abbrev createAnd (l r : Expr) : Build Expr := b.create (.binary .and l r)
abbrev createOr (l r : Expr) : Build Expr := b.create (.binary .or l r)
abbrev createXor (l r : Expr) : Build Expr := b.create (.binary .xor l r)
abbrev createLAnd (l r : Expr) : Build Expr := b.create (.binary .land l r)
abbrev createLOr (l r : Expr) : Build Expr := b.create (.binary .lor l r)
abbrev createEqual (l r : Expr) : Build Expr := b.create (.compare .equal l r)
abbrev createIte (cond t f : Expr) : Build Expr := b.create (.ite cond t f)

/-- `createBinaryExpr` -/
abbrev createBinaryExpr (k : BinaryKind) (l r : Expr) : Build Expr := b.create (.binary k l r)

end ExprBuilder

end Qsym
