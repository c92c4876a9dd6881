import VirtualMesh.Binary64
import VirtualMesh.Time.Delay

/-!
# Latency of a link

Delays are normally distributed around the latency of a link, with a standard deviation that is
a fixed fraction of it. A random source yields one standard normal number for each message.
-/

namespace VirtualMesh

/-- A state from which standard normal numbers are drawn one after another. -/
class NormalSource (ρ : Type) where
  ofSeed : UInt64 → ρ
  /-- The sources without a seed, one for each number; nothing is said about how they differ. -/
  unseeded : Nat → ρ
  draw : ρ → Float × ρ

/-- The source of this number, with or without a seed. -/
def NormalSource.make {ρ : Type} [NormalSource ρ] (seed : Option UInt64) (number : Nat) : ρ :=
  match seed with
  | some seed => ofSeed seed
  | none => unseeded number

structure Latency where
  mean : Duration
  jitter : Binary64

namespace Latency

/-- The delay for one standard normal number. -/
def delay (l : Latency) (z : Float) : Delay :=
  let mean := Binary64.nearest l.mean.nanos
  Delay.ofFloat (mean + l.jitter.toFloat * mean * z)

def sample {ρ : Type} [NormalSource ρ] (l : Latency) (source : ρ) : Delay × ρ :=
  let (z, source) := NormalSource.draw source
  (l.delay z, source)

end Latency

end VirtualMesh
