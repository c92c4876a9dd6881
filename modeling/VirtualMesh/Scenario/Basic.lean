import VirtualMesh.Engine.Recording
import VirtualMesh.Simulation.Basic

/-!
# Latency scenarios

A scenario is a traffic pattern on a full mesh: in every round each engine sends one payload to
every other. The mesh is then left to settle, closed, and reported on.
-/

namespace VirtualMesh

structure Scenario where
  name : String
  description : String
  engineCount : Nat
  latency : Duration
  rounds : Nat
  payloadSize : Nat
  settle : Duration
  seed : UInt64

structure ScenarioResult where
  name : String
  report : MeshReport
  expected : UInt64
  /-- The settle time, for in virtual time all else takes none. -/
  elapsed : Duration

def ScenarioResult.allDelivered (r : ScenarioResult) : Bool := r.report.stats.messages = r.expected

inductive ScenarioError where
  | tooFewEngines (name : String)
  /-- Nothing lets time pass. -/
  | noRuntime
  | mesh (e : MeshError)
  | fault (f : Fault)

def ScenarioError.message : ScenarioError → List Char
  | .tooFewEngines name =>
    "scenario '".toList ++ name.toList ++ "' needs at least two engines".toList
  | .noRuntime => "latency scenarios need a tokio runtime".toList
  | .mesh e => e.message
  | .fault _ => []

namespace Scenario

/-- One message for each round and each ordered pair of engines. -/
def expectedMessages (s : Scenario) : Except Fault UInt64 := do
  let pairs ← mulCount s.engineCount (s.engineCount - 1)
  let messages ← mulCount pairs s.rounds
  return UInt64.ofNat messages

def config (s : Scenario) : Config :=
  { Config.default with
    latency := s.latency
    seed := some s.seed }

def engines (s : Scenario) : List RecordingEngine :=
  (List.range s.engineCount).map fun i => .initial ⟨BigEndian.encode 4 i⟩

/-- Zeros, with the number of the round in front. -/
def payload (s : Scenario) (round : Nat) : Bytes :=
  match s.payloadSize with
  | 0 => []
  | n + 1 => UInt8.ofNat round :: List.replicate n 0

/-- All messages of the scenario, with the peers they go through, in the order of sending. -/
def traffic (s : Scenario) (m : Mesh) : List (Nat × Bytes) :=
  (List.range s.rounds).flatMap fun round =>
    let payload := s.payload round
    m.peers.map (·, payload)

/-- Where the clock of a scenario starts. -/
def start : Instant := default

/-- When a scenario has settled, or the end of the time line if that comes first. -/
def settled (s : Scenario) : Instant := (start.add? s.settle).getD .last

variable {ρ : Type} [NormalSource ρ]

/-- Starts the mesh, sends the traffic, and lets the scenario settle. The time to settle passes at
once: the clock jumps to its end, and what is due by then runs there, late. So a peer is updated
at most once more, however long that time is; a report does not count updates. -/
def play (s : Scenario) (w : World RecordingEngine ρ) (m : Mesh) :
    Except Fault (Simulation RecordingEngine ρ) := do
  let sim : Simulation RecordingEngine ρ := Machine.startingAt start w
  let sim ← (sim.updateAll m.peers).sendAll (s.traffic m)
  let (_, sim) ← World.dynamics.runUntil s.settled (sim.moveTo s.settled)
  return sim.withWorld (sim.world.closeAll m.peers).2

def run (s : Scenario) (source : Type) [NormalSource source] (hasRuntime : Bool) :
    Except ScenarioError ScenarioResult :=
  if s.engineCount < Mesh.minSize then .error (.tooFewEngines s.name)
  else if !hasRuntime then .error .noRuntime
  else
    let engines := s.engines
    match (World.ofEngines engines : World RecordingEngine source).buildMesh
        (List.range engines.length) s.config with
    | .error e => .error (.mesh e)
    | .ok w =>
      let m := w.mesh.getD ⟨[]⟩
      let result : Except Fault ScenarioResult := do
        let sim ← s.play w m
        let report ← sim.world.report m
        let expected ← s.expectedMessages
        return ⟨s.name, report, expected, s.settle⟩
      result.mapError .fault

def milliseconds (n : Nat) : Duration := (Duration.ofNanos? (n * 10 ^ 6)).getD .zero

/-- The scenarios that are run if none are given. -/
def defaults : List Scenario :=
  [{ name := "LAN"
     description := "Four engines on a low-latency link"
     engineCount := 4
     latency := milliseconds 5
     rounds := 10
     payloadSize := 128
     settle := milliseconds 200
     seed := 1 },
   { name := "WAN"
     description := "Four engines across a 50ms link"
     engineCount := 4
     latency := milliseconds 50
     rounds := 10
     payloadSize := 100
     settle := milliseconds 500
     seed := 2 },
   { name := "Large Cluster"
     description := "Ten engines exchanging small messages"
     engineCount := 10
     latency := milliseconds 20
     rounds := 3
     payloadSize := 64
     settle := milliseconds 400
     seed := 3 }]

end Scenario

end VirtualMesh
