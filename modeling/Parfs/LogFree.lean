/-
Freeing a chain of log pages.

The chain is walked by the next pointers in the page tails, which freeing does not touch.  Pages
with consecutive block numbers are collected into a run, and a run is freed with one call; what
the call answers is not looked at.  The counters are `int`.
-/
import Parfs.Log
import Parfs.Setsize

namespace Parfs

open Lib

/-- The variables of the loop, and the lists it works on. -/
structure ChainFree where
  sbi : NovaSbInfo
  startBlocknr : Nat
  numFree : Int
  freed : Int

/-- Where the slab puts the next range node, if there is room. -/
abbrev RangeSlab : Type := NovaSbInfo → Option Nat

section

variable (env : BallocEnv) (slab : RangeSlab) (btype : BlockType) (m : ByteMem)

/-- Free the run. -/
def ChainFree.flush (f : ChainFree) : ChainFree :=
  { f with
    sbi := (novaFreeLogBlocks env f.sbi btype f.startBlocknr f.numFree (slab f.sbi)).1
    freed := toS32 (f.freed + f.numFree) }

/-- What the loop does with one page. -/
def ChainFree.page (f : ChainFree) (blocknr : Nat) : ChainFree :=
  if f.startBlocknr = 0 then { f with startBlocknr := blocknr, numFree := 1 }
  else if blocknr = intToU64 (f.startBlocknr + f.numFree) then { f with numFree := toS32 (f.numFree + 1) }
  -- a new start
  else { f.flush env slab btype with startBlocknr := blocknr, numFree := 1 }

/-- The loop of `nova_free_contiguous_log_blocks`; an address inside a page ends it. -/
def novaFreeContiguousLogBlocksLoop : Nat → Nat → ChainFree → Except Fault ChainFree
  | 0, _, _ => .error .loops
  | fuel + 1, currBlock, f =>
    if currBlock = 0 then .ok f
    else if entryLoc currBlock ≠ 0 then .ok f
    else
      novaFreeContiguousLogBlocksLoop fuel (nextLogPage m currBlock)
        (f.page env slab btype (novaGetBlocknr currBlock))

/-- `nova_free_contiguous_log_blocks`, with the lists it leaves -/
def novaFreeContiguousLogBlocks (fuel : Nat) (sbi : NovaSbInfo) (head : Nat) :
    Except Fault (NovaSbInfo × Int) :=
  (novaFreeContiguousLogBlocksLoop env slab btype m fuel head ⟨sbi, 0, 0, 0⟩).map fun f =>
    let f := if f.startBlocknr ≠ 0 then f.flush env slab btype else f
    (f.sbi, f.freed)

end

end Parfs
