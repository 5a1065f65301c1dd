import Std.Data.HashMap
import Std.Data.TreeMap
import FlatFourier.Graph

namespace FlatFourier

structure Write where
  array : ArrayId
  seq : Nat
  node : NodeId
deriving DecidableEq, Repr

structure WriteLog where
  entries : Array Write
  counts : Std.HashMap ArrayId Nat

namespace WriteLog

def empty : WriteLog where
  entries := #[]
  counts := ∅

def size (log : WriteLog) : Nat :=
  log.entries.size

/-- How many writes to the array have been numbered. -/
def epoch (log : WriteLog) (array : ArrayId) : Nat :=
  log.counts.getD array 0

/-- Gives out the number of the array's next write. -/
def reserve (log : WriteLog) (array : ArrayId) : Nat × WriteLog :=
  let seq := log.epoch array
  match log with
  | ⟨entries, counts⟩ => (seq, ⟨entries, counts.insert array (seq + 1)⟩)

/-- Enters a write under its number. -/
def record (log : WriteLog) (write : Write) : WriteLog :=
  match log with
  | ⟨entries, counts⟩ => ⟨entries.push write, counts⟩

end WriteLog

/-- The writes of each array, found by number. -/
structure WriteOrder where
  writes : Std.TreeMap ArrayId (Array NodeId)

namespace WriteOrder

def insert (order : WriteOrder) (write : Write) : WriteOrder :=
  ⟨order.writes.alter write.array fun nodes => some ((nodes.getD #[]).push write.node)⟩

def ofLog (log : WriteLog) : WriteOrder :=
  log.entries.foldl insert ⟨∅⟩

/-- Write number `seq` of an array. -/
def write? (order : WriteOrder) (array : ArrayId) (seq : Nat) : Option NodeId :=
  (order.writes.getD array #[])[seq]?

/-- The write just before epoch `epoch` of an array. -/
def lastBefore? (order : WriteOrder) (array : ArrayId) : Nat → Option NodeId
  | 0 => none
  | epoch + 1 => order.write? array epoch

/-- The write that a read or a write has to come after. -/
def predecessor? (order : WriteOrder) (kind : Kind) (seq : Option Nat) : Option NodeId :=
  match kind with
  | .read array _ epoch => order.lastBefore? array epoch
  | .write array _ _ => seq.bind (order.lastBefore? array)
  | _ => none

/-- The write that a read has to come before. -/
def successor? (order : WriteOrder) : Kind → Option NodeId
  | .read array _ epoch => order.write? array epoch
  | _ => none

/-- All writes, by array and then by number. -/
def all (order : WriteOrder) : List NodeId :=
  order.writes.toList.flatMap fun entry => entry.2.toList

end WriteOrder

end FlatFourier
