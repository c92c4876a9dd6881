import VirtualMesh.Decimal.Layout
import VirtualMesh.Error
import VirtualMesh.Time.Duration

/-!
# Configuration of peers

All peers of a mesh share one configuration: how long messages take, how often engines are
updated, and what happens to delays below zero and to messages that outlive their peer.
-/

namespace VirtualMesh

/-- What to do with a sampled delay below zero. -/
inductive NegativeDelay where
  /-- Schedule and record the delay as zero. -/
  | clamp
  /-- Record the delay as sampled and deliver at once. -/
  | fireImmediately
  deriving DecidableEq

/-- What becomes of a delivery that fires after its peer was closed. -/
inductive OnClose where
  | deliver
  | drop
  deriving DecidableEq

structure Config where
  latency : Duration
  /-- Standard deviation of the delays, as a fraction of the latency. -/
  jitter : Binary64
  /-- Time between two updates of a started peer. -/
  tick : Duration
  negative : NegativeDelay
  onClose : OnClose
  seed : Option UInt64

namespace Config

def default : Config :=
  { latency := .zero
    jitter := ⟨0x3fb999999999999a⟩
    tick := ⟨20 * 10 ^ 6, by decide⟩
    negative := .clamp
    onClose := .deliver
    seed := none }

/-- The longest time between updates. -/
def maxTick : Duration := ⟨3600 * 10 ^ 9, by decide⟩

/-- Why a configuration is refused. -/
inductive Flaw where
  | jitter (given : Binary64)
  | tickZero
  | tickTooLong (given : Duration)

def Flaw.reason : Flaw → List Char
  | .jitter given =>
    "jitter_ratio must be a finite non-negative number, got ".toList ++
      Decimal.plainLayout.text given
  | .tickZero => "tick_interval must be greater than zero".toList
  | .tickTooLong given =>
    "tick_interval must be at most ".toList ++ maxTick.text ++ ", got ".toList ++ given.text

/-- The first flaw, in the order jitter, tick. -/
def flaw? (c : Config) : Option Flaw :=
  if !c.jitter.isFinite || (c.jitter.isNegative && !c.jitter.isZero) then some (.jitter c.jitter)
  else if c.tick.nanos = 0 then some .tickZero
  else if maxTick.nanos < c.tick.nanos then some (.tickTooLong c.tick)
  else none

def validate (c : Config) : Except MeshError Unit :=
  match c.flaw? with
  | some f => .error (.invalidConfig f.reason)
  | none => .ok ()

end Config

def NegativeDelay.all : List NegativeDelay := [.clamp, .fireImmediately]

def NegativeDelay.name : NegativeDelay → String
  | .clamp => "Clamp"
  | .fireImmediately => "FireImmediately"

def NegativeDelay.ofName? (n : String) : Option NegativeDelay := all.find? fun p => p.name = n

def OnClose.all : List OnClose := [.deliver, .drop]

def OnClose.name : OnClose → String
  | .deliver => "Deliver"
  | .drop => "Drop"

def OnClose.ofName? (n : String) : Option OnClose := all.find? fun p => p.name = n

end VirtualMesh
