import VirtualMesh.Address
import VirtualMesh.Config
import VirtualMesh.Consensus.State
import VirtualMesh.Json.Coded
import VirtualMesh.Scenario.Basic

/-!
# The written forms of values

Numbers stand for heights, rounds, delays and counts, arrays of numbers for byte strings, names
for errors, phases and policies, and records for the rest.
-/

namespace VirtualMesh

instance : Coded UInt64 where
  encode n := .ofNat n.toNat
  decode? j := (j.natBelow? (2 ^ 64)).map UInt64.ofNat

instance : Coded Height where
  encode h := Coded.encode h.value
  decode? j := (Coded.decode? j).map Height.mk

instance : Coded Round where
  encode r := Coded.encode r.value
  decode? j := (Coded.decode? j).map Round.mk

instance : Coded Delay where
  encode d := .ofInt d.nanos
  decode? j := j.int?.bind Delay.ofInt?

instance : Coded State where
  encode s := .ofBytes s.bytes
  decode? j := j.bytes?.map State.mk

instance : Coded PublicKey where
  encode k := .ofBytes k.bytes
  decode? j := j.bytes?.map PublicKey.mk

instance : Coded Address where
  encode a := .ofText a.hyphenated
  decode? j := j.string?.bind Address.ofText?

instance : Coded String where
  encode s := .ofText s.toList
  decode? j := j.string?.map String.ofList

instance : Coded Binary64 where
  encode := .ofDouble
  decode?
    | .number text => (Json.float? text).map Binary64.ofFloat
    | _ => none

instance : Coded ErrorPhase where
  encode p := .ofText p.name.toList
  decode? j := j.name?.bind fun n => ErrorPhase.ofName? (String.ofList n)

instance : Coded ConsensusError where
  encode e := .ofText e.name.toList
  decode? j := j.name?.bind fun n => ConsensusError.ofName? (String.ofList n)

instance : Coded NegativeDelay where
  encode p := .ofText p.name.toList
  decode? j := j.name?.bind fun n => NegativeDelay.ofName? (String.ofList n)

instance : Coded OnClose where
  encode p := .ofText p.name.toList
  decode? j := j.name?.bind fun n => OnClose.ofName? (String.ofList n)

/-- Seconds and nanoseconds, of which there may be more than a second; nothing else. -/
instance : Coded Duration where
  encode d := .record [("secs", .ofNat d.secs), ("nanos", .ofNat d.subsecNanos)]
  decode? j :=
    match j.fields? .refuse ["secs".toList, "nanos".toList] with
    | some [secs, nanos] => do
      let secs ← (← secs).natBelow? (2 ^ 64)
      let nanos ← (← nanos).natBelow? (2 ^ 32)
      Duration.ofParts? secs nanos
    | _ => none

instance : Coded Config where
  encode c := .record
    [("latency", Coded.encode c.latency), ("jitter_ratio", Coded.encode c.jitter),
      ("tick_interval", Coded.encode c.tick), ("negative_delay", Coded.encode c.negative),
      ("on_close", Coded.encode c.onClose), ("randomization_seed", .encodeOption c.seed)]
  decode? j :=
    match j.fields? .skip ["latency".toList, "jitter_ratio".toList, "tick_interval".toList,
        "negative_delay".toList, "on_close".toList, "randomization_seed".toList] with
    | some [latency, jitter, tick, negative, onClose, seed] => do
      return ⟨← Json.required latency, ← Json.required jitter, ← Json.required tick,
        ← Json.required negative, ← Json.required onClose, ← Json.optional seed⟩
    | _ => none

instance : Coded LatencyStats where
  encode s := .record
    [("min", .encodeOption s.min), ("max", .encodeOption s.max), ("total", Coded.encode s.total)]
  decode? j :=
    match j.fields? .skip ["min".toList, "max".toList, "total".toList] with
    | some [min, max, total] => do
      return ⟨← Json.optional min, ← Json.optional max, ← Json.required total⟩
    | _ => none

instance : Coded PeerStats where
  encode s := .record
    [("messages", Coded.encode s.messages), ("bytes", Coded.encode s.bytes),
      ("dropped", Coded.encode s.dropped), ("latencies", Coded.encode s.latencies)]
  decode? j :=
    match j.fields? .skip ["messages".toList, "bytes".toList, "dropped".toList,
        "latencies".toList] with
    | some [messages, bytes, dropped, latencies] => do
      return ⟨← Json.required messages, ← Json.required bytes, ← Json.required dropped,
        ← Json.required latencies⟩
    | _ => none

instance : Coded MeshReport where
  encode r := .record
    [("engines", Coded.encode r.engines), ("peers", Coded.encode r.peers),
      ("stats", Coded.encode r.stats), ("mean_latency", .encodeOption r.meanLatency)]
  decode? j :=
    match j.fields? .skip ["engines".toList, "peers".toList, "stats".toList,
        "mean_latency".toList] with
    | some [engines, peers, stats, mean] => do
      return ⟨← Json.required engines, ← Json.required peers, ← Json.required stats,
        ← Json.optional mean⟩
    | _ => none

/-- Results are only written. -/
def ScenarioResult.json (r : ScenarioResult) : Json :=
  .record
    [("name", Coded.encode r.name), ("report", Coded.encode r.report),
      ("expected_messages", Coded.encode r.expected), ("elapsed", Coded.encode r.elapsed)]

end VirtualMesh
