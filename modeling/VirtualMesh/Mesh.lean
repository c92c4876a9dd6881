import VirtualMesh.Error
import VirtualMesh.Stats

/-!
# Meshes

A mesh connects each of its engines to every other one: for every ordered pair of places there is
one peer, bound to the engine at the second place, through which the first reaches the second.
-/

namespace VirtualMesh

/-- For each place the other places with the number of the peer that leads there. -/
structure Mesh where
  rows : List (List (Nat × Nat))

namespace Mesh

def minSize : Nat := 2

/-- The elements at all places but one, each with its place. -/
def others {α : Type} (l : List α) (place : Nat) : List (α × Nat) :=
  l.zipIdx.filter fun x => x.2 ≠ place

/-- The mesh on `engines` whose peers are numbered from `first` on, row by row. -/
def number {α : Type} (engines : List α) (first : Nat) : Mesh where
  rows := (List.range engines.length).map fun place =>
    ((others engines place).map Prod.snd).zipIdx (first + place * (engines.length - 1))

def size (m : Mesh) : Nat := m.rows.length

def peerCount (m : Mesh) : Nat := (m.rows.map List.length).foldr (· + ·) 0

/-- All peers, row by row. -/
def peers (m : Mesh) : List Nat := m.rows.flatten.map Prod.snd

def contains (m : Mesh) (peer : Nat) : Bool := m.rows.any fun row => row.any fun x => x.2 = peer

theorem contains_iff {m : Mesh} {peer : Nat} : m.contains peer = true ↔ peer ∈ m.peers := by
  constructor
  · intro h
    simp only [contains, List.any_eq_true, decide_eq_true_eq] at h
    obtain ⟨row, hrow, x, hx, rfl⟩ := h
    exact List.mem_map_of_mem (List.mem_flatten_of_mem hrow hx)
  · intro h
    obtain ⟨x, hx, rfl⟩ := List.mem_map.1 h
    obtain ⟨row, hrow, hx⟩ := List.mem_flatten.1 hx
    exact List.any_eq_true.2 ⟨row, hrow, List.any_eq_true.2 ⟨x, hx, by simp⟩⟩

def peersOf (m : Mesh) (place : Nat) : Except MeshError (List (Nat × Nat)) :=
  match m.rows[place]? with
  | some row => .ok row
  | none => .error (.peerNotFound place m.size)

/-- The peer through which one place reaches another. -/
def peer (m : Mesh) (place target : Nat) : Except MeshError Nat :=
  match m.peersOf place with
  | .error e => .error e
  | .ok row =>
    match row.find? fun x => x.1 = target with
    | some (_, p) => .ok p
    | none => .error (.peerNotFound target m.size)

end Mesh

/-- The statistics of all peers of a mesh together. -/
structure MeshReport where
  engines : UInt64
  peers : UInt64
  stats : PeerStats
  meanLatency : Option Delay
  deriving DecidableEq

/-- The report on a mesh of `engines` engines with peers of these statistics. -/
def MeshReport.of (engines : Nat) (stats : List PeerStats) : Except Fault MeshReport := do
  let total ← stats.foldlM PeerStats.merge .empty
  let mean ← total.meanLatency
  return ⟨UInt64.ofNat engines, UInt64.ofNat stats.length, total, mean⟩

end VirtualMesh
