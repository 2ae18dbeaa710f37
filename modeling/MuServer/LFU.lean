import Mathlib.Data.Finset.Card
import MuServer.Lib.Filing
import MuServer.Basic

/-!
# The frequency cache

A node is a number, its fields are in `nodes`; the two sentinels of a
`FreqList` are left out and the nodes between them are the list. A null
pointer that `operator[]` would put in `freqToFreqList_` is dereferenced at
once, so it is a fault and not an entry. Counters are `int` and `size_t`.
The order in which `nodeMap_` is iterated is a parameter of each operation.
-/

set_option autoImplicit false

namespace MuServer
open Lib.Filing

structure Node (K V : Type) where
  freq : ℤ := 1
  key : K
  value : V

abbrev NodeMap (K : Type) := AList (fun _ : K => ℕ)

structure Iteration (K : Type) where
  order : List (Sigma (fun _ : K => ℕ)) → List (Sigma (fun _ : K => ℕ))
  perm : ∀ entries, (order entries).Perm entries

def Iteration.forward {K : Type} : Iteration K where
  order := id
  perm := fun _ => List.Perm.refl _

structure LFUCache (K V : Type) where
  capacity_ : ℕ
  minFreq_ : ℤ
  maxAvgFreq_ : ℤ
  curAvgFreq_ : ℤ
  curTotalFreq_ : ℤ
  nodeMap_ : NodeMap K
  freqToFreqList_ : Buckets ℤ ℕ
  nodes : ℕ → Node K V
  /-- the number of nodes made so far -/
  made : ℕ

def INT8_MAX : ℤ := 127

def increment (x : ℤ) : Except Fault ℤ :=
  if x < INT_MAX then .ok (x+1) else .error .overflow

def subtract (x y : ℤ) : Except Fault ℤ :=
  if -INT_MAX-1 ≤ x-y ∧ x-y ≤ INT_MAX then .ok (x-y) else .error .overflow

def average (total : ℤ) (size : ℕ) : ℤ := Int.bmod ((toSize total/size : ℕ) : ℤ) (2^32)

namespace LFUCache

variable {K V : Type} [DecidableEq K] [Inhabited K] [Inhabited V]

def create (capacity : ℕ) (maxAverageNum : ℤ) : LFUCache K V where
  capacity_ := capacity
  minFreq_ := INT8_MAX
  maxAvgFreq_ := maxAverageNum
  curAvgFreq_ := 0
  curTotalFreq_ := 0
  nodeMap_ := ∅
  freqToFreqList_ := ∅
  nodes := fun _ => { key := default, value := default }
  made := 0

def size (c : LFUCache K V) : ℕ := c.nodeMap_.entries.length

def freqList (c : LFUCache K V) (freq : ℤ) : Except Fault (List ℕ) :=
  match c.freqToFreqList_.lookup freq with
  | some list => .ok list
  | none => .error .nullPointer

def setNode (c : LFUCache K V) (n : ℕ) (node : Node K V) : LFUCache K V :=
  { c with nodes := Function.update c.nodes n node }

def setFreq (c : LFUCache K V) (n : ℕ) (freq : ℤ) : LFUCache K V :=
  c.setNode n { c.nodes n with freq := freq }

def removeFromFreqList (c : LFUCache K V) (n : ℕ) : Except Fault (LFUCache K V) := do
  let freq := (c.nodes n).freq
  let _ ← c.freqList freq
  .ok { c with freqToFreqList_ := remove c.freqToFreqList_ freq n }

def addToFreqList (c : LFUCache K V) (n : ℕ) : LFUCache K V :=
  { c with freqToFreqList_ := add c.freqToFreqList_ (c.nodes n).freq n }

def updateMinFreq (c : LFUCache K V) : LFUCache K V :=
  let minFreq := least c.freqToFreqList_ INT8_MAX
  { c with minFreq_ := if minFreq = INT8_MAX then 1 else minFreq }

def ageNode (c : LFUCache K V) (n : ℕ) : Except Fault (LFUCache K V) := do
  let c ← c.removeFromFreqList n
  let freq ← subtract (c.nodes n).freq (c.maxAvgFreq_.tdiv 2)
  .ok ((c.setFreq n (if freq < 1 then 1 else freq)).addToFreqList n)

def ageNodes (c : LFUCache K V) : List ℕ → Except Fault (LFUCache K V)
  | [] => .ok c
  | n::ns => do
    let c ← c.ageNode n
    c.ageNodes ns

def handleOverMaxAverageNum (c : LFUCache K V) (it : Iteration K) : Except Fault (LFUCache K V) :=
  if c.nodeMap_.entries = [] then .ok c
  else do
    let c ← c.ageNodes ((it.order c.nodeMap_.entries).map Sigma.snd)
    .ok c.updateMinFreq

def setTotal (c : LFUCache K V) (total : ℤ) : LFUCache K V :=
  { c with
    curTotalFreq_ := total
    curAvgFreq_ := if c.nodeMap_.entries = [] then 0 else average total c.size }

def increaseFreq (c : LFUCache K V) (it : Iteration K) : Except Fault (LFUCache K V) := do
  let total ← increment c.curTotalFreq_
  let c := c.setTotal total
  if c.maxAvgFreq_ < c.curAvgFreq_ then c.handleOverMaxAverageNum it else .ok c

def decreaseFreq (c : LFUCache K V) (num : ℤ) : Except Fault (LFUCache K V) := do
  let total ← subtract c.curTotalFreq_ num
  .ok (c.setTotal total)

/-- The first node of an empty list is its tail sentinel: it carries the
default key and frequency 1, and `removeNode` does nothing with it. -/
def kickOut (c : LFUCache K V) : Except Fault (LFUCache K V) := do
  let list ← c.freqList c.minFreq_
  match list with
  | n::_ =>
    let c ← c.removeFromFreqList n
    let c := { c with nodeMap_ := c.nodeMap_.erase (c.nodes n).key }
    c.decreaseFreq (c.nodes n).freq
  | [] =>
    let _ ← c.freqList 1
    let c := { c with nodeMap_ := c.nodeMap_.erase default }
    c.decreaseFreq 1

/-- `minFreq_++` when the node has left the list of `minFreq_` empty. -/
def advanceMinFreq (c : LFUCache K V) (freq : ℤ) : Except Fault (LFUCache K V) :=
  if freq-1 = c.minFreq_ then do
    let list ← c.freqList (freq-1)
    if list = [] then do
      let minFreq ← increment c.minFreq_
      .ok { c with minFreq_ := minFreq }
    else .ok c
  else .ok c

/-- The out parameter `value` is what the node holds at the start. -/
def getInternal (c : LFUCache K V) (n : ℕ) (it : Iteration K) : Except Fault (LFUCache K V) := do
  let c ← c.removeFromFreqList n
  let freq ← increment (c.nodes n).freq
  let c ← ((c.setFreq n freq).addToFreqList n).advanceMinFreq freq
  c.increaseFreq it

def putInternal (c : LFUCache K V) (key : K) (value : V) (it : Iteration K) :
    Except Fault (LFUCache K V) := do
  let c ← if c.size = c.capacity_ then c.kickOut else .ok c
  let n := c.made
  let c := { c.setNode n { key := key, value := value } with
    nodeMap_ := c.nodeMap_.insert key n
    made := n+1 }
  let c ← (c.addToFreqList n).increaseFreq it
  .ok { c with minFreq_ := min c.minFreq_ 1 }

def put (c : LFUCache K V) (key : K) (value : V) (it : Iteration K) :
    Except Fault (LFUCache K V) :=
  if c.capacity_ = 0 then .ok c
  else match c.nodeMap_.lookup key with
    | some n => (c.setNode n { c.nodes n with value := value }).getInternal n it
    | none => c.putInternal key value it

def get? (c : LFUCache K V) (key : K) (it : Iteration K) :
    Except Fault (Option V × LFUCache K V) :=
  match c.nodeMap_.lookup key with
  | some n => do
    let c' ← c.getInternal n it
    .ok (some (c.nodes n).value, c')
  | none => .ok (none, c)

def get (c : LFUCache K V) (key : K) (it : Iteration K) : Except Fault (V × LFUCache K V) := do
  let (value, c') ← c.get? key it
  .ok (value.getD default, c')

def purge (c : LFUCache K V) : LFUCache K V :=
  { c with nodeMap_ := ∅, freqToFreqList_ := ∅ }

end LFUCache

inductive CacheOp (K V : Type) where
  | put (key : K) (value : V)
  | get (key : K)
  | purge

namespace LFUCache

variable {K V : Type} [DecidableEq K] [Inhabited K] [Inhabited V]

def apply (c : LFUCache K V) (op : CacheOp K V) (it : Iteration K) :
    Except Fault (LFUCache K V) :=
  match op with
  | .put key value => c.put key value it
  | .get key => (c.get key it).map Prod.snd
  | .purge => .ok c.purge

def applyAll (c : LFUCache K V) : List (CacheOp K V × Iteration K) → Except Fault (LFUCache K V)
  | [] => .ok c
  | op::ops => do
    let c ← c.apply op.1 op.2
    c.applyAll ops

def valueOf (c : LFUCache K V) (key : K) : Option V :=
  (c.nodeMap_.lookup key).map (fun n => (c.nodes n).value)

end LFUCache
end MuServer
