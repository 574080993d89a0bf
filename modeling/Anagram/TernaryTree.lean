-- The ternary search trie of ternary_tree.cc: nodes in a heap, with pointers
-- to the parent and to the left, center and right child. A pointer to a
-- pointer, as `Insert` takes one, is a slot of the heap.
import Anagram.Machine

namespace anagram

/-- A node. Its address is its place in the heap, and `none` is the null pointer. -/
structure TNode where
  parent_ : Option Nat
  l_ : Option Nat
  c_ : Option Nat
  r_ : Option Nat
  key_ : UInt8
  terminator_ : Bool
  upper_ : Bool

/-- The nodes in the order of their allocation, and the pointer to the root. -/
structure Trie where
  heap : List TNode
  root : Option Nat

def Trie.empty : Trie := ⟨[], none⟩

/-- What a `TNode **` points to. -/
inductive Slot
  | root
  | left (a : Nat)
  | center (a : Nat)
  | right (a : Nat)
deriving DecidableEq

/-- `word[i]`, in the memory from the pointer on. -/
def charAt (word : List UInt8) (i : Nat) : Run UInt8 :=
  match word[i]? with
  | some c => .ok c
  | none => .error .undefined

namespace Trie

def node (t : Trie) (a : Nat) : Run TNode :=
  match t.heap[a]? with
  | some n => .ok n
  | none => .error .undefined

def modify (t : Trie) (a : Nat) (f : TNode → TNode) : Trie := { t with heap := t.heap.modify a f }

/-- `*slot` -/
def load (t : Trie) : Slot → Run (Option Nat)
  | .root => .ok t.root
  | .left a => do .ok (← t.node a).l_
  | .center a => do .ok (← t.node a).c_
  | .right a => do .ok (← t.node a).r_

/-- `*slot = p` -/
def store (t : Trie) (p : Option Nat) : Slot → Trie
  | .root => { t with root := p }
  | .left a => t.modify a fun n => { n with l_ := p }
  | .center a => t.modify a fun n => { n with c_ := p }
  | .right a => t.modify a fun n => { n with r_ := p }

/-- The pointer in the slot, for an access through it. -/
def deref (t : Trie) (slot : Slot) : Run Nat := do
  match ← t.load slot with
  | some a => .ok a
  | none => .error .undefined

/-- `new TNode(key)` and `SetKey(key)`, on the value of the key as an unsigned char. -/
def newNode (key : UInt8) : TNode := ⟨none, none, none, none, tolower key, false, isupper key⟩

/-- `AllocNode` -/
def allocNode (t : Trie) (key : UInt8) : Nat × Trie :=
  (t.heap.length, { t with heap := t.heap ++ [newNode key] })

/-- `if (!(*ppNode)) *ppNode = AllocNode(*word);` -/
def ensureNode (t : Trie) (c : UInt8) (slot : Slot) : Run Trie := do
  match ← t.load slot with
  | some _ => .ok t
  | none => .ok ((t.allocNode c).2.store (some (t.allocNode c).1) slot)

def setParent (t : Trie) (child parent : Option Nat) : Run Trie :=
  match child with
  | some a => do
    let _ ← t.node a
    .ok (t.modify a fun n => { n with parent_ := parent })
  | none => .error .undefined

/-- What `Insert` does at the node that `*ppNode` points to. -/
def insertAt (insert : List UInt8 → Slot → Trie → Run (Nat × Trie)) (word : List UInt8)
    (c : UInt8) (slot : Slot) (t : Trie) : Run Trie := do
  let a ← t.deref slot
  let n ← t.node a
  if tolowerChar c < n.key_.toNat then
    let (_, t) ← insert word (.left a) t
    let n ← t.node (← t.deref slot)
    t.setParent n.l_ n.parent_
  else if tolowerChar c > n.key_.toNat then
    let (_, t) ← insert word (.right a) t
    let n ← t.node (← t.deref slot)
    t.setParent n.r_ n.parent_
  else if (← charAt word 1) ≠ 0 then
    let (child, t) ← insert (word.drop 1) (.center a) t
    t.setParent (some child) (some (← t.deref slot))
  else .ok (t.modify a fun n => { n with terminator_ := true })

/-- `Insert`. The fuel bounds the depth of the recursion. -/
def insert : Nat → List UInt8 → Slot → Trie → Run (Nat × Trie)
  | 0, _, _, _ => .error .out_of_fuel
  | fuel + 1, word, slot, t => do
    let c ← charAt word 0
    let t ← t.ensureNode c slot
    let t ← insertAt (insert fuel) word c slot t
    .ok (← t.deref slot, t)

/-- `Find`: the result, and the node at `*ppTerminal` if the call sets it. -/
def find (t : Trie) : Nat → List UInt8 → Option Nat → Run (Bool × Option Nat)
  | 0, _, _ => .error .out_of_fuel
  | _ + 1, _, none => .ok (false, none)
  | fuel + 1, word, some a => do
    let n ← t.node a
    let c ← charAt word 0
    if schar c < n.key_.toNat then t.find fuel word n.l_
    else if schar c > n.key_.toNat then t.find fuel word n.r_
    else if (← charAt word 1) = 0 then .ok (n.terminator_, some a)
    else t.find fuel (word.drop 1) n.c_

/-- `Insert` of a word from the root, where the caller drops the result. -/
def insertWord (fuel : Nat) (t : Trie) (word : Text) : Run Trie := do
  let (_, t) ← insert fuel (c_str word) .root t
  .ok t

/-- The insert loop over the words of a dictionary. -/
def insertAll (fuel : Nat) (words : List Text) (t : Trie) : Run Trie :=
  words.foldlM (insertWord fuel) t

end Trie

end anagram
