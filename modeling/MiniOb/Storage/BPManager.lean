import MiniOb.Lib.Ring
import MiniOb.Lib.Slots
import MiniOb.Types

/-! # The frames of the buffer pool

`BPManager` of `bp_manager.cpp` down to its pointers: the links of `list.h` that lie in the frames, and the hash map
with its 64-bit keys. What the pages hold is left to the pool above; a frame has the number of its page. -/

namespace MiniOb
open Slots

namespace BPManager

/-- `LRUFrame`, with the fields of its `Frame`; its links are in `Ring`. -/
structure LRUFrame where
  dirty : Bool
  pinCount : Nat
  fileDesc : Int
  pageNum : PageNum
  allocated : Bool

def key (fileDesc : Int) (pageNum : PageNum) : Nat :=
  ((fileDesc % 2 ^ 64 * 2 ^ 32 + pageNum % 2 ^ 64) % 2 ^ 64).toNat

end BPManager

/-- `BPManager`. Frames are named by their index in the array; `none` is the head of `frame_list`. -/
structure BPManager where
  size : Nat
  frames : Nat → BPManager.LRUFrame
  links : Ring (Option Nat)
  listMap : Nat → Option Nat

namespace BPManager

def modFrame (i : Nat) (f : LRUFrame → LRUFrame) (m : BPManager) : BPManager :=
  { m with frames := set m.frames i (f (m.frames i)) }

/-- The constructor. The storage of the frames is as it comes. -/
def create (size : Nat) (raw : Nat → LRUFrame) (links : Ring (Option Nat)) : BPManager where
  size := size
  frames i := if i < size then { raw i with allocated := false } else raw i
  links := (List.range size).foldl (fun r i => r.addPrev none (some i)) (links.init none)
  listMap _ := none

def lruUpdate (i : Nat) (m : BPManager) : BPManager := { m with links := (m.links.delete (some i)).add none (some i) }

def findUnallocated (m : BPManager) : Option Nat :=
  let i := firstIdx m.size fun i => !(m.frames i).allocated
  if i < m.size then some i else none

def find (fileDesc : Int) (pageNum : PageNum) (m : BPManager) : Option Nat := m.listMap (key fileDesc pageNum)

def setMap (k : Nat) (v : Option Nat) (m : BPManager) : BPManager := { m with listMap := Function.update m.listMap k v }

/-- `evict`; `flush` is whether `flush_block` succeeds. -/
def evict (flush : Bool) (m : BPManager) : Option Nat × BPManager :=
  match m.links.findBack none (fun n => n.any fun i => decide ((m.frames i).pinCount = 0)) (m.size + 1)
    (m.links.prev none) with
  | none | some none => (none, m)
  | some (some i) =>
    let m₁ := m.setMap (key (m.frames i).fileDesc (m.frames i).pageNum) none
    if (m.frames i).dirty then
      if flush then (some i, m₁.modFrame i fun f => { f with dirty := false }) else (none, m₁)
    else (some i, m₁)

def assign (fileDesc : Int) (pageNum : PageNum) (i : Nat) (m : BPManager) : BPManager :=
  ((m.modFrame i fun f => { f with dirty := false, fileDesc := fileDesc }).setMap (key fileDesc pageNum)
    (some i)).lruUpdate i

def alloc (flush : Bool) (fileDesc : Int) (pageNum : PageNum) (m : BPManager) : Option Nat × BPManager :=
  match m.findUnallocated with
  | some i => (some i, (m.modFrame i fun f => { f with allocated := true }).assign fileDesc pageNum i)
  | none =>
    match m.evict flush with
    | (none, m₁) => (none, m₁)
    | (some i, m₁) => (some i, m₁.assign fileDesc pageNum i)

def get (fileDesc : Int) (pageNum : PageNum) (m : BPManager) : Option (Nat × BPManager) :=
  (m.find fileDesc pageNum).map fun i => (i, m.lruUpdate i)

/-- What the caller of `alloc` does with the frame: it stores the number of the page and a pin count. -/
def store (pageNum : PageNum) (pins i : Nat) (m : BPManager) : BPManager :=
  m.modFrame i fun f => { f with pageNum := pageNum, pinCount := pins }

end BPManager

/-! ### Callers -/

/-- A call of the manager, or a change that a caller makes to a frame it has. -/
inductive BPAct
  | alloc (flush : Bool) (fileDesc : Int) (pageNum : PageNum) (pins : Nat)
  | get (fileDesc : Int) (pageNum : PageNum)
  | setPins (frame pins : Nat)
  | setDirty (frame : Nat) (dirty : Bool)

def BPAct.Flushes : BPAct → Prop
  | .alloc flush _ _ _ => flush = true
  | .get _ _ | .setPins _ _ | .setDirty _ _ => True

instance : (a : BPAct) → Decidable a.Flushes
  | .alloc flush _ _ _ => inferInstanceAs (Decidable (flush = true))
  | .get _ _ | .setPins _ _ | .setDirty _ _ => isTrue trivial

/-- The manager with the frames that have been touched, the latest first: by an `alloc` or a successful `get`. -/
structure BPRun where
  manager : BPManager
  history : List Nat

namespace BPRun

def step (s : BPRun) : BPAct → BPRun
  | .alloc flush fileDesc pageNum pins =>
    match s.manager.alloc flush fileDesc pageNum with
    | (none, m) => { s with manager := m }
    | (some i, m) => ⟨m.store pageNum pins i, i :: s.history⟩
  | .get fileDesc pageNum =>
    match s.manager.get fileDesc pageNum with
    | none => s
    | some (i, m) => ⟨m, i :: s.history⟩
  | .setPins i pins => { s with manager := s.manager.modFrame i fun f => { f with pinCount := pins } }
  | .setDirty i dirty => { s with manager := s.manager.modFrame i fun f => { f with dirty := dirty } }

def start (size : Nat) (raw : Nat → BPManager.LRUFrame) (links : Ring (Option Nat)) : BPRun :=
  ⟨.create size raw links, []⟩

/-- `alloc` is only called for a page that `get` does not find. -/
def Legal (s : BPRun) : BPAct → Prop
  | .alloc _ fileDesc pageNum _ => IsInt fileDesc ∧ IsInt pageNum ∧ s.manager.find fileDesc pageNum = none
  | .get fileDesc pageNum => IsInt fileDesc ∧ IsInt pageNum
  | .setPins _ _ | .setDirty _ _ => True

instance (s : BPRun) : (a : BPAct) → Decidable (s.Legal a)
  | .alloc _ _ _ _ => inferInstanceAs (Decidable (_ ∧ _ ∧ _))
  | .get _ _ => inferInstanceAs (Decidable (_ ∧ _))
  | .setPins _ _ | .setDirty _ _ => isTrue trivial

end BPRun

end MiniOb
