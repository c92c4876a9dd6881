import VirtualMesh.Proofs.Simulation.Closing
import VirtualMesh.Proofs.Simulation.Holding

/-!
# Update loops

A call from outside that updates an open peer starts a loop: the peer puts a tick into the queue, and the
tick, when it fires, updates the peer again. Each tick that is put comes from a call or from a tick that
updated, so the number of loops of a peer can be read off the history.
-/

namespace VirtualMesh

def Task.ticks? : Task → Option Nat
  | .delivery .. => none
  | .tick p => some p

/-- The peer that an entry ticks, with the time. -/
def Entry.tick? (e : Entry Task) : Option (Nat × Instant) := e.task.ticks?.map (·, e.fireAt)

def timesOf (p : Nat) (l : List (Nat × Instant)) : List Instant := (l.filter fun x => x.1 = p).map Prod.snd

@[simp] theorem timesOf_nil (p : Nat) : timesOf p [] = [] := rfl

@[simp] theorem timesOf_append (p : Nat) (l l' : List (Nat × Instant)) :
    timesOf p (l ++ l') = timesOf p l ++ timesOf p l' := by
  rw [timesOf, List.filter_append, List.map_append, timesOf, timesOf]

@[simp] theorem timesOf_cons_self (p : Nat) (t : Instant) (l : List (Nat × Instant)) :
    timesOf p ((p, t) :: l) = t :: timesOf p l := by
  simp [timesOf]

theorem timesOf_cons_of_ne {p q : Nat} (h : q ≠ p) (t : Instant) (l : List (Nat × Instant)) :
    timesOf p ((q, t) :: l) = timesOf p l := by
  simp [timesOf, h]

theorem timesOf_perm {l l' : List (Nat × Instant)} (h : l.Perm l') (p : Nat) :
    (timesOf p l).Perm (timesOf p l') :=
  (h.filter _).map _

theorem timesOf_map_toList (p : Nat) (o : Option Instant) : timesOf p (o.map (p, ·)).toList = o.toList := by
  cases o <;> simp

theorem timesOf_map_toList_of_ne {p q : Nat} (h : q ≠ p) (o : Option Instant) :
    timesOf p (o.map (q, ·)).toList = [] := by
  cases o
  · rfl
  · exact timesOf_cons_of_ne h _ _

theorem Config.flaw?_eq_none {c : Config} (h : c.validate = .ok ()) : c.flaw? = none := by
  unfold validate at h
  cases hf : c.flaw? with
  | none => rfl
  | some f => rw [hf] at h; cases h

theorem Config.tick_pos {c : Config} (h : c.validate = .ok ()) : 0 < c.tick.nanos := by
  have hnone := flaw?_eq_none h
  unfold flaw? at hnone
  split at hnone
  · cases hnone
  · split at hnone
    · cases hnone
    · omega

namespace World

variable {ε ρ : Type} {w w' : World ε ρ} {p : Nat}

/-- The peer is there, and closed or dead. -/
def Rests (w : World ε ρ) (p : Nat) : Prop :=
  p < w.peers.length ∧ (w.isClosed p = true ∨ w.isAlive p = false)

theorem Rests.elim (h : w.Rests p) (hopen : w.isClosed p = false) (halive : w.isAlive p = true) : False := by
  rcases h.2 with hclosed | hdead
  · rw [hopen] at hclosed; cases hclosed
  · rw [halive] at hdead; cases hdead

theorem Rests.mono (hclosed : w.isClosed p = true → w'.isClosed p = true) (hfades : w.Fades w')
    (h : w.Rests p) : w'.Rests p := by
  refine ⟨Nat.lt_of_lt_of_le h.1 hfades.length_le, h.2.imp hclosed fun hdead => ?_⟩
  cases halive : w'.isAlive p with
  | false => rfl
  | true => rw [hfades.isAlive p h.1 halive] at hdead; cases hdead

/-- If the peer is there, this is its interval. -/
def HasTick (w : World ε ρ) (p : Nat) (tick : Duration) : Prop :=
  ∀ peer, w.peers[p]? = some peer → peer.config.tick = tick

theorem WellFormed.exists_hasTick (h : w.WellFormed) (p : Nat) : ∃ tick, 0 < tick.nanos ∧ w.HasTick p tick := by
  cases hp : w.peers[p]? with
  | none => exact ⟨Config.default.tick, by decide, fun peer hpeer => nomatch hp.symm.trans hpeer⟩
  | some peer =>
    refine ⟨peer.config.tick, Config.tick_pos (h.valid peer (List.mem_of_getElem? hp)), fun peer' hpeer => ?_⟩
    rw [Option.some.inj (hpeer.symm.trans hp)]

theorem HasTick.of_origins (h : w.origins <+: w'.origins) {tick : Duration} (hw' : w'.HasTick p tick) :
    w.HasTick p tick := by
  intro peer hpeer
  obtain ⟨hlt, heq⟩ := List.getElem?_eq_some_iff.1 (origin_of_peer hpeer)
  obtain ⟨peer', hpeer', hsame⟩ := exists_of_origin (List.prefix_iff_getElem?.1 h p hlt)
  rw [heq] at hsame
  have hconfig : peer'.origin.config = peer.origin.config := congrArg Peer.config hsame
  rw [← hw' peer' hpeer']
  exact congrArg Config.tick hconfig.symm

end World

namespace Simulation

variable {ε ρ : Type}

section
variable (s : Simulation ε ρ)

/-- The ticks that were ever put into the queue. -/
def armings : List (Nat × Instant) := s.submitted.filterMap fun x => x.2.tick?

def pendingTicks : List (Nat × Instant) := s.queue.filterMap Entry.tick?

/-- The ticks that fired. -/
def ticked : List (Nat × Instant) := s.fired.filterMap fun x => x.2.1.tick?

/-- The ticks that updated an engine. -/
def beats : List (Nat × Instant) :=
  s.fired.filterMap fun x => if x.2.2 = .ticked .armed then x.2.1.tick? else none

def ticksFor (p : Nat) : Nat := s.queue.countP fun e => e.task.ticks? = some p

/-- The peers that a command updates from outside, with the clock. -/
def calls : Command → List (Nat × Instant)
  | .update handle => (s.world.peerOfHandle handle).toList.map (·, s.clock)
  | .startMesh => ((s.world.mesh.map Mesh.peers).getD []).map (·, s.clock)
  | _ => []

/-- Those of them that are open, so that their engines are updated. -/
def updates (c : Command) : List (Nat × Instant) := (s.calls c).filter fun x => !s.world.isClosed x.1

theorem ticksFor_eq (p : Nat) : s.ticksFor p = (timesOf p s.pendingTicks).length := by
  unfold ticksFor pendingTicks
  induction s.queue with
  | nil => rfl
  | cons e q ih =>
    rw [List.countP_cons, ih]
    cases ht : e.task with
    | delivery =>
      rw [List.filterMap_cons_none (by rw [Entry.tick?, ht]; rfl)]
      simp [Task.ticks?]
    | tick r =>
      rw [List.filterMap_cons_some (b := (r, e.fireAt)) (by rw [Entry.tick?, ht]; rfl)]
      by_cases hr : r = p
      · subst hr
        simp [Task.ticks?]
      · simp [Task.ticks?, hr, timesOf_cons_of_ne hr]

/-! ## What each change does to the ticks -/

variable (w : World ε ρ) (t : Instant) (e : Entry Task) (rest : List (Entry Task)) (outcome : Outcome)
  (x : Submission Task)

@[simp] theorem armings_withWorld : Simulation.armings (s.withWorld w) = s.armings := rfl

@[simp] theorem ticked_withWorld : Simulation.ticked (s.withWorld w) = s.ticked := rfl

@[simp] theorem beats_withWorld : Simulation.beats (s.withWorld w) = s.beats := rfl

@[simp] theorem armings_moveTo : Simulation.armings (s.moveTo t) = s.armings := rfl

@[simp] theorem ticked_moveTo : Simulation.ticked (s.moveTo t) = s.ticked := rfl

@[simp] theorem beats_moveTo : Simulation.beats (s.moveTo t) = s.beats := rfl

@[simp] theorem armings_popped : Simulation.armings (s.popped e rest outcome w) = s.armings := by
  rw [armings, Machine.submitted_popped, armings]

@[simp] theorem ticked_popped :
    Simulation.ticked (s.popped e rest outcome w) = s.ticked ++ e.tick?.toList := by
  rw [ticked, Machine.fired_popped, List.filterMap_append, ticked]
  cases h : e.tick? <;> simp [h]

@[simp] theorem beats_popped : Simulation.beats (s.popped e rest outcome w) =
    s.beats ++ (if outcome = .ticked .armed then e.tick? else none).toList := by
  rw [beats, Machine.fired_popped, List.filterMap_append, beats]
  cases h : e.tick? <;> by_cases ho : outcome = .ticked .armed <;> simp [h, ho]

@[simp] theorem ticked_putAll (xs : List (Submission Task)) :
    Simulation.ticked (Machine.putAll xs s) = s.ticked := by
  rw [ticked, Machine.fired_putAll, ticked]

@[simp] theorem beats_putAll (xs : List (Submission Task)) :
    Simulation.beats (Machine.putAll xs s) = s.beats := by
  rw [beats, Machine.fired_putAll, beats]

@[simp] theorem ticked_put : Simulation.ticked (s.put x) = s.ticked := by
  rw [ticked, Machine.fired_put, ticked]

@[simp] theorem beats_put : Simulation.beats (s.put x) = s.beats := by
  rw [beats, Machine.fired_put, beats]

theorem armings_put : Simulation.armings (s.put x) = s.armings ++ (s.entryOf x).tick?.toList := by
  rw [armings, Machine.submitted_put, List.filterMap_append, armings]
  cases h : (s.entryOf x).tick? <;> simp [h]

@[simp] theorem armings_arm (interval : Duration) (p : Nat) :
    Simulation.armings (Machine.putAll (Ticker.arm interval (.tick p) t) s) =
      s.armings ++ ((t.add? interval).map (p, ·)).toList := by
  unfold Ticker.arm
  cases t.add? interval with
  | none => simp [Machine.putAll_nil]
  | some u =>
    rw [Machine.putAll_cons, Machine.putAll_nil, armings_put]
    rfl

end

theorem ticks_perm {s : Simulation ε ρ} (h : s.Ledger) : (s.ticked ++ s.pendingTicks).Perm s.armings := by
  have hb := h.balanced.filterMap Entry.tick?
  rw [List.filterMap_append, List.filterMap_map, List.filterMap_map] at hb
  exact hb

theorem ticksFor_add {s : Simulation ε ρ} (h : s.Ledger) (p : Nat) :
    (timesOf p s.ticked).length + s.ticksFor p = (timesOf p s.armings).length := by
  rw [ticksFor_eq, ← List.length_append, ← timesOf_append, (timesOf_perm (ticks_perm h) p).length_eq]

theorem ticksFor_balance {s s' : Simulation ε ρ} (hs : s.Ledger) (hs' : s'.Ledger) {p : Nat} (put fired : List Instant)
    (harmings : timesOf p s'.armings = timesOf p s.armings ++ put)
    (hticked : timesOf p s'.ticked = timesOf p s.ticked ++ fired) :
    s'.ticksFor p + fired.length = s.ticksFor p + put.length := by
  have hbefore := ticksFor_add hs p
  have hafter := ticksFor_add hs' p
  rw [harmings, hticked, List.length_append, List.length_append] at hafter
  omega

variable [NormalSource ρ] [Consensus ε] {s s' s₁ : Simulation ε ρ} {a : Action} {as : List Action}

/-- What an action does to the update loops. -/
inductive Turn (s s' : Simulation ε ρ) : Action → Prop
  | still {a : Action} (ha : ∀ p, a ≠ .update p) (he : ∀ e, a = .fire e → e.tick? = none)
      (harmings : s'.armings = s.armings) (hticked : s'.ticked = s.ticked) (hbeats : s'.beats = s.beats) : Turn s s' a
  | call {p : Nat} {peer : Peer} (hp : s.world.peers[p]? = some peer)
      (harmings : s'.armings = s.armings ++ ((s.clock.add? peer.config.tick).map (p, ·)).toList)
      (hticked : s'.ticked = s.ticked) (hbeats : s'.beats = s.beats) : Turn s s' (.update p)
  | beat {e : Entry Task} {p : Nat} {peer : Peer} (ht : e.task = .tick p) (hp : s.world.peers[p]? = some peer)
      (hopen : s.world.isClosed p = false) (halive : s.world.isAlive p = true)
      (harmings : s'.armings = s.armings ++ ((e.fireAt.add? peer.config.tick).map (p, ·)).toList)
      (hticked : s'.ticked = s.ticked ++ [(p, e.fireAt)])
      (hbeats : s'.beats = s.beats ++ [(p, e.fireAt)]) : Turn s s' (.fire e)
  | idle {e : Entry Task} {p : Nat} (ht : e.task = .tick p) (hrests : s.world.Rests p)
      (hworld : s'.world = s.world) (harmings : s'.armings = s.armings)
      (hticked : s'.ticked = s.ticked ++ [(p, e.fireAt)]) (hbeats : s'.beats = s.beats) : Turn s s' (.fire e)

theorem Step.turn (hs : s.Sound) (hstep : Step s a s') : s.Turn s' a := by
  have htick : ∀ {e : Entry Task} {p : Nat}, e.task = .tick p → e.tick? = some (p, e.fireAt) := by
    intro e p ht
    rw [Entry.tick?, ht]
    rfl
  have hnone : ∀ {e : Entry Task} {p : Nat} {payload : Bytes} {delay : Delay},
      e.task = .delivery p payload delay → e.tick? = none := by
    intro e p payload delay ht
    rw [Entry.tick?, ht]
    rfl
  cases hstep with
  | deliver hq ht | drop hq ht =>
    refine .still nofun ?_ (by simp) (by simp [hnone ht]) (by simp)
    rintro _ ⟨⟩
    exact hnone ht
  | @tick e rest p peer x hq ht halive hp hopen hx =>
    refine .beat ht hp (by rw [World.isClosed_eq hp, hopen]) halive ?_ (by simp [htick ht]) (by simp [htick ht])
    rw [armings_arm, armings_popped, hs.punctual.max_clock hq]
  | @idle e rest p outcome hq ht ho =>
    have hlt : p < s.world.peers.length := by
      have h := hs.target_of_queue (hq ▸ List.mem_cons_self)
      rwa [ht] at h
    have hrests : s.world.isClosed p = true ∨ s.world.isAlive p = false := by
      rcases ho with ⟨-, hdead⟩ | ⟨-, -, peer, hp, hclosed⟩
      · exact .inr hdead
      · exact .inl (by rw [World.isClosed_eq hp, hclosed])
    refine .idle ht ⟨hlt, hrests⟩ rfl (by simp) (by simp [htick ht]) ?_
    rcases ho with ⟨rfl, -⟩ | ⟨rfl, -⟩ <;> simp
  | @update p peer x hp hopen hx => exact .call hp (by simp) (by simp) (by simp)
  | send =>
    refine .still nofun (fun _ h => nomatch h) ?_ (by simp) (by simp)
    rw [armings_put]
    exact List.append_nil _
  | _ => exact .still nofun (fun _ h => nomatch h) rfl rfl rfl

theorem Step.still (hstep : Step s a s') (ha : a.isCalm = true) : s'.armings = s.armings ∧
    s'.ticked = s.ticked ∧ s'.beats = s.beats ∧ s'.clock = s.clock := by
  cases hstep with
  | wait | deliver | drop | tick | idle | update | updateEngine => cases ha
  | send =>
    refine ⟨?_, by simp, by simp, rfl⟩
    rw [armings_put]
    exact List.append_nil _
  | _ => exact ⟨rfl, rfl, rfl, rfl⟩

theorem Trace.still (htrace : Trace s as s') (has : ∀ a ∈ as, a.isCalm = true) : s'.armings = s.armings ∧
    s'.ticked = s.ticked ∧ s'.beats = s.beats ∧ s'.clock = s.clock := by
  induction htrace with
  | nil => exact ⟨rfl, rfl, rfl, rfl⟩
  | cons hstep _ ih =>
    obtain ⟨ha, has⟩ := List.forall_mem_cons.1 has
    obtain ⟨harmings, hticked, hbeats, hclock⟩ := hstep.still ha
    obtain ⟨harmings', hticked', hbeats', hclock'⟩ := ih has
    exact ⟨harmings'.trans harmings, hticked'.trans hticked, hbeats'.trans hbeats, hclock'.trans hclock⟩

/-! ## Loops along a run -/

theorem update_step (hs : s.Sound) {p : Nat} (hp : p < s.world.peers.length) (hopen : s.world.isClosed p = false) :
    Step s (.update p) (s.update p).2 := by
  obtain ⟨peer, x, hpeer, hx⟩ := hs.world.exists_peer hp
  rw [World.isClosed_eq hpeer] at hopen
  rw [update, World.update_eq hpeer hx hopen]
  exact .update hpeer hopen hx

theorem updateAll_actions (hs : s.Sound) {peers : List Nat} (hlt : ∀ p ∈ peers, p < s.world.peers.length) :
    Trace s ((peers.filter fun p => !s.world.isClosed p).map .update) (s.updateAll peers) := by
  induction peers generalizing s with
  | nil => exact .nil
  | cons p ps ih =>
    obtain ⟨hp, hps⟩ := List.forall_mem_cons.1 hlt
    rw [updateAll, List.foldl_cons]
    cases hclosed : s.world.isClosed p with
    | true =>
      rw [update_eq_of_isClosed hclosed, List.filter_cons_of_neg (by simp [hclosed])]
      exact ih hs hps
    | false =>
      have hstep := update_step hs hp hclosed
      rw [List.filter_cons_of_pos (by simp [hclosed]), ← isClosed_update p]
      exact .cons hstep (ih (hstep.sound hs) (by rwa [peers_update]))

theorem Step.clock_of_update {p : Nat} (hstep : Step s (.update p) s') : s'.clock = s.clock := by
  cases hstep
  rw [Machine.clock_putAll, Machine.clock_withWorld]

theorem Step.peers_of_update {p : Nat} (hstep : Step s (.update p) s') : s'.world.peers = s.world.peers := by
  cases hstep
  rw [Machine.world_putAll]
  rfl

theorem Trace.armings_of_updates {peers : List Nat} (htrace : Trace s (peers.map .update) s') (hs : s.Sound)
    {p : Nat} {tick : Duration} (htick : s.world.HasTick p tick) :
    s'.ticked = s.ticked ∧ s'.beats = s.beats ∧ timesOf p s'.armings =
      timesOf p s.armings ++ (timesOf p (peers.map (·, s.clock))).filterMap (·.add? tick) := by
  induction peers generalizing s with
  | nil =>
    cases htrace
    exact ⟨rfl, rfl, (List.append_nil _).symm⟩
  | cons q qs ih =>
    cases htrace with
    | cons hstep htrace =>
      obtain ⟨hticked, hbeats, harmings⟩ := ih htrace (hstep.sound hs) (by rwa [World.HasTick, hstep.peers_of_update])
      -- an update leaves the clock alone, so the ticks are all for the same time
      rw [hstep.clock_of_update] at harmings
      cases hstep.turn hs with
      | still ha => exact absurd rfl (ha q)
      | @call _ peer hp harmings' hticked' hbeats' =>
        refine ⟨hticked.trans hticked', hbeats.trans hbeats', ?_⟩
        rw [harmings, harmings', timesOf_append, List.append_assoc, List.map_cons]
        by_cases hqp : q = p
        · subst hqp
          rw [timesOf_map_toList, timesOf_cons_self, htick peer hp]
          cases hat : s.clock.add? tick <;> simp [hat]
        · rw [timesOf_map_toList_of_ne hqp, timesOf_cons_of_ne hqp, List.nil_append]

theorem armings_updateAll (hs : s.Sound) {peers : List Nat} (hlt : ∀ q ∈ peers, q < s.world.peers.length)
    {p : Nat} {tick : Duration} (htick : s.world.HasTick p tick) :
    (s.updateAll peers).ticked = s.ticked ∧ (s.updateAll peers).beats = s.beats ∧
      timesOf p (s.updateAll peers).armings = timesOf p s.armings ++
        (timesOf p ((peers.map (·, s.clock)).filter fun x => !s.world.isClosed x.1)).filterMap (·.add? tick) := by
  rw [List.filter_map]
  exact (updateAll_actions hs hlt).armings_of_updates hs htick

omit [NormalSource ρ] [Consensus ε] in
theorem updates_of_isCalm {c : Command} (hc : c.isCalm = true) : s.updates c = [] := by
  cases c <;> first | rfl | cases hc

/-- A command that does not let time pass fires nothing, and puts a tick into the queue for each update. -/
theorem armings_of_apply (hs : s.Sound) {c : Command} (hc : ∀ step, c ≠ .time step) {answer : Answer}
    (h : s.apply c = .ok (answer, s')) {p : Nat} {tick : Duration} (htick : s'.world.HasTick p tick) :
    s'.ticked = s.ticked ∧ s'.beats = s.beats ∧ timesOf p s'.armings =
      timesOf p s.armings ++ (timesOf p (s.updates c)).filterMap (·.add? tick) := by
  obtain ⟨as, htrace, -, -⟩ := apply_actions hs h
  have htick₀ := World.HasTick.of_origins htrace.origins_prefix htick
  cases course_of_apply hs h with
  | calm hcalm h =>
    obtain ⟨as, htrace, has, -⟩ := h
    obtain ⟨harmings, hticked, hbeats, -⟩ := htrace.still has
    exact ⟨hticked, hbeats, by rw [harmings, updates_of_isCalm hcalm]; simp⟩
  | time => exact absurd rfl (hc _)
  | update hp =>
    rw [updates, calls, hp]
    exact armings_updateAll hs (List.forall_mem_singleton.2 (hs.world.peerOfHandle_lt hp)) htick₀
  | updateAt hstep =>
    cases hstep
    exact ⟨rfl, rfl, (List.append_nil _).symm⟩
  | startMesh hm =>
    rw [updates, calls, hm]
    exact armings_updateAll hs (hs.world.mesh _ hm) htick₀

/-- The ticks that were ever put into the queue for a peer come from calls and from ticks that updated. -/
def Looping (s : Simulation ε ρ) (p : Nat) (calls : List Instant) : Prop :=
  ∀ tick, s.world.HasTick p tick →
    (timesOf p s.armings).Perm ((calls ++ timesOf p s.beats).filterMap (·.add? tick))

theorem Step.looping (hs : s.Sound) {p : Nat} {calls : List Instant} (h : s.Looping p calls)
    (hstep : Step s a s') (ha : a ≠ .update p) : s'.Looping p calls := by
  intro tick htick
  have hperm := h tick (.of_origins hstep.origins_prefix htick)
  cases hstep.turn hs with
  | still _ _ harmings _ hbeats => rwa [harmings, hbeats]
  | @call q peer _ harmings _ hbeats =>
    have hq : q ≠ p := fun hqp => ha (congrArg Action.update hqp)
    rwa [harmings, hbeats, timesOf_append, timesOf_map_toList_of_ne hq, List.append_nil]
  | @beat e q peer ht hp hopen halive harmings hticked hbeats =>
    rw [harmings, hbeats, timesOf_append, timesOf_append]
    by_cases hq : q = p
    · -- the beat stands on the right, and on the left the tick that it puts into the queue
      subst hq
      have hpeer : peer.config.tick = tick := (World.HasTick.of_origins hstep.origins_prefix htick) peer hp
      rw [timesOf_map_toList, timesOf_cons_self, timesOf_nil, hpeer, ← List.append_assoc, List.filterMap_append]
      refine hperm.append ?_
      cases hat : e.fireAt.add? tick <;> simp [hat]
    · rwa [timesOf_map_toList_of_ne hq, timesOf_cons_of_ne hq, timesOf_nil, List.append_nil, List.append_nil]
  | idle _ _ _ harmings _ hbeats => rwa [harmings, hbeats]

theorem Trace.looping (htrace : Trace s as s') (hs : s.Sound) {p : Nat} {calls : List Instant}
    (h : s.Looping p calls) (has : ∀ a ∈ as, a ≠ .update p) : s'.Looping p calls :=
  (htrace.induct (P := fun s => s.Sound ∧ s.Looping p calls)
    (fun ha h hstep => ⟨hstep.sound h.1, hstep.looping h.1 h.2 ha⟩) has ⟨hs, h⟩).2

theorem looping_of_apply (hs : s.Sound) {p : Nat} {calls : List Instant} (h : s.Looping p calls) {c : Command}
    {answer : Answer} (happly : s.apply c = .ok (answer, s')) : s'.Looping p (calls ++ timesOf p (s.updates c)) := by
  by_cases hc : ∃ step, c = .time step
  · obtain ⟨step, rfl⟩ := hc
    obtain ⟨as, htrace, has⟩ := apply_time_trace hs happly
    refine (List.append_nil calls).symm ▸ htrace.looping hs h fun a ha => ?_
    obtain ⟨t, rfl⟩ | ⟨e, rfl⟩ := has a ha <;> simp
  · intro tick htick
    obtain ⟨as, htrace, -, -⟩ := apply_actions hs happly
    obtain ⟨-, hbeats, harmings⟩ := armings_of_apply hs (fun step hstep => hc ⟨step, hstep⟩) happly htick
    have hperm := h tick (.of_origins htrace.origins_prefix htick)
    rw [harmings, hbeats]
    simp only [List.filterMap_append] at hperm ⊢
    refine (hperm.append_right _).trans ?_
    rw [List.append_assoc, List.append_assoc]
    exact List.perm_append_comm.append_left _

theorem collect_induct {α : Type} {f : Simulation ε ρ → Command → List α} {P : Simulation ε ρ → List α → Prop}
    (hkeep : ∀ {s l c answer s'}, s.Sound → P s l → s.apply c = .ok (answer, s') → P s' (l ++ f s c))
    {l : List α} {cs : List Command} {answers : List Answer} (hs : s.Sound) (h : P s l)
    (hrun : s.run cs = .ok (answers, s')) : P s' (l ++ s.collect f cs) := by
  induction cs generalizing s l answers with
  | nil =>
    cases hrun
    rwa [collect, List.append_nil]
  | cons c cs ih =>
    obtain ⟨answer, s₁, rest, happly, hrun⟩ := run_cons_eq_ok hrun
    obtain ⟨as, htrace, -, -⟩ := apply_actions hs happly
    have h' := ih (htrace.sound hs) (hkeep hs h happly) hrun
    rwa [collect, happly, ← List.append_assoc]

theorem looping_of_run {clock : Instant} {engines : List ε} {commands : List Command} {answers : List Answer}
    (hrun : (start clock engines).run commands = .ok (answers, s)) (p : Nat) :
    s.Looping p (timesOf p (collect updates (start clock engines : Simulation ε ρ) commands)) := by
  have hkeep : ∀ {s : Simulation ε ρ} {l c answer s'}, s.Sound → s.Looping p (timesOf p l) →
      s.apply c = .ok (answer, s') → s'.Looping p (timesOf p (l ++ s.updates c)) := by
    intro s l c answer s' hs h happly
    rw [timesOf_append]
    exact looping_of_apply hs h happly
  have hstart : (start clock engines : Simulation ε ρ).Looping p (timesOf p []) := fun tick _ => .refl _
  exact collect_induct (P := fun s l => s.Looping p (timesOf p l)) hkeep (.start clock engines) hstart hrun

theorem updates_eq_calls (hs : s.Sound) {cs : List Command} {answers : List Answer}
    (hrun : s.run cs = .ok (answers, s')) {p : Nat} (hopen : s'.world.isClosed p = false) :
    timesOf p (s.collect updates cs) = timesOf p (s.collect calls cs) := by
  induction cs generalizing s answers with
  | nil => rfl
  | cons c cs ih =>
    obtain ⟨answer, s₁, rest, happly, hrun'⟩ := run_cons_eq_ok hrun
    obtain ⟨as, htrace, -, -⟩ := apply_actions hs happly
    obtain ⟨bs, htrace', -, -⟩ := run_trace hs hrun
    have hopen₀ := htrace'.isOpen hopen
    have hupdates : timesOf p (s.updates c) = timesOf p (s.calls c) := by
      rw [updates, timesOf, List.filter_filter, timesOf]
      congr 1
      refine List.filter_congr fun x _ => ?_
      by_cases hx : x.1 = p
      · simp [hx, hopen₀]
      · simp [hx]
    rw [collect, collect, happly, timesOf_append, timesOf_append, hupdates, ih (htrace.sound hs) hrun']

/-! ## Peers at rest -/

theorem Trace.rests (htrace : Trace s as s') (hfades : s.world.Fades s'.world) {p : Nat}
    (h : s.world.Rests p) : s'.world.Rests p :=
  h.mono htrace.isClosed hfades

theorem rests_of_apply (hs : s.Sound) {p : Nat} (h : s.world.Rests p) {c : Command} {answer : Answer}
    (happly : s.apply c = .ok (answer, s')) : s'.world.Rests p := by
  obtain ⟨as, htrace, -, -⟩ := apply_actions hs happly
  exact htrace.rests (fades_of_apply hs happly) h

omit [NormalSource ρ] [Consensus ε] in
theorem updates_of_rests {p : Nat} (h : s.world.Rests p) (c : Command) : timesOf p (s.updates c) = [] := by
  have hcalls : ∀ x ∈ s.calls c, s.world.isHeld x.1 = true := by
    intro x hx
    cases c with
    | update handle =>
      obtain ⟨q, hq, rfl⟩ := List.mem_map.1 hx
      exact World.isHeld_of_handle (Option.mem_toList.1 hq)
    | startMesh =>
      obtain ⟨q, hq, rfl⟩ := List.mem_map.1 hx
      cases hm : s.world.mesh with
      | none => rw [hm] at hq; cases hq
      | some m => rw [hm] at hq; exact World.isHeld_of_mesh hm hq
    | _ => cases hx
  rw [timesOf, List.map_eq_nil_iff, List.filter_eq_nil_iff]
  rintro ⟨q, t⟩ hx hq
  obtain rfl : q = p := by simpa using hq
  obtain ⟨hx, hopen⟩ := List.mem_filter.1 hx
  rcases h.2 with hclosed | hdead
  · simp [hclosed] at hopen
  · rw [World.isAlive_iff.2 (.inl (hcalls _ hx))] at hdead
    cases hdead

theorem Trace.ticks_of_rests (htrace : Trace s as s') (hs : s.Sound) {p : Nat} (h : s.world.Rests p)
    (has : ∀ a ∈ as, (∃ t, a = .wait t) ∨ ∃ e, a = .fire e) :
    timesOf p s'.armings = timesOf p s.armings ∧ timesOf p s'.beats = timesOf p s.beats := by
  induction htrace with
  | nil => exact ⟨rfl, rfl⟩
  | @cons s s₁ s' a as hstep htrace ih =>
    obtain ⟨ha, has⟩ := List.forall_mem_cons.1 has
    have htame : a.Tame s.world := by obtain ⟨t, rfl⟩ | ⟨e, rfl⟩ := ha <;> trivial
    have hrests := (Trace.single hstep).rests (hstep.fades htame) h
    obtain ⟨harmings, hbeats⟩ := ih (hstep.sound hs) hrests has
    rw [harmings, hbeats]
    cases hstep.turn hs with
    | still _ _ harmings' _ hbeats' => exact ⟨by rw [harmings'], by rw [hbeats']⟩
    | call => obtain ⟨t, ht⟩ | ⟨e, he⟩ := ha <;> contradiction
    | @beat e q peer ht hp hopen halive harmings' _ hbeats' =>
      -- a tick that updates is for another peer
      have hq : q ≠ p := by
        rintro rfl
        exact h.elim hopen halive
      rw [harmings', hbeats', timesOf_append, timesOf_append, timesOf_map_toList_of_ne hq, timesOf_cons_of_ne hq]
      simp
    | idle _ _ _ harmings' _ hbeats' => exact ⟨by rw [harmings'], by rw [hbeats']⟩

theorem ticks_of_rests (hs : s.Sound) {p : Nat} (h : s.world.Rests p) {cs : List Command} {answers : List Answer}
    (hrun : s.run cs = .ok (answers, s')) :
    timesOf p s'.armings = timesOf p s.armings ∧ timesOf p s'.beats = timesOf p s.beats := by
  induction cs generalizing s answers with
  | nil =>
    cases hrun
    exact ⟨rfl, rfl⟩
  | cons c cs ih =>
    obtain ⟨answer, s₁, rest, happly, hrun⟩ := run_cons_eq_ok hrun
    obtain ⟨as, htrace, -, -⟩ := apply_actions hs happly
    obtain ⟨harmings, hbeats⟩ := ih (htrace.sound hs) (rests_of_apply hs h happly) hrun
    rw [harmings, hbeats]
    by_cases hc : ∃ step, c = .time step
    · obtain ⟨step, rfl⟩ := hc
      obtain ⟨as, htrace, has⟩ := apply_time_trace hs happly
      exact htrace.ticks_of_rests hs h has
    · obtain ⟨tick, -, htick⟩ := (htrace.sound hs).world.exists_hasTick p
      obtain ⟨-, hbeats', harmings'⟩ := armings_of_apply hs (fun step hstep => hc ⟨step, hstep⟩) happly htick
      rw [harmings', hbeats', updates_of_rests h]
      simp

/-- The ticks of a peer have all updated its engine, unless the peer is at rest. -/
def Steady (s : Simulation ε ρ) : Prop := ∀ p, timesOf p s.ticked = timesOf p s.beats ∨ s.world.Rests p

theorem Step.steady (hs : s.Sound) (h : s.Steady) (hstep : Step s a s') (ha : a.Tame s.world) : s'.Steady := by
  have hrests : ∀ {p}, s.world.Rests p → s'.world.Rests p := (Trace.single hstep).rests (hstep.fades ha)
  intro p
  cases hstep.turn hs with
  | still _ _ _ hticked hbeats | call _ _ hticked hbeats =>
    rw [hticked, hbeats]
    exact (h p).imp_right hrests
  | beat _ _ _ _ _ hticked hbeats =>
    rw [hticked, hbeats, timesOf_append, timesOf_append]
    exact (h p).imp (congrArg (· ++ _)) hrests
  | @idle e q ht hq hworld _ hticked hbeats =>
    by_cases hqp : q = p
    · subst hqp
      exact .inr (hrests hq)
    · rw [hticked, hbeats, timesOf_append, timesOf_cons_of_ne hqp, timesOf_nil, List.append_nil]
      exact (h p).imp_right hrests

theorem steady_of_apply (hs : s.Sound) (h : s.Steady) {c : Command} {answer : Answer}
    (happly : s.apply c = .ok (answer, s')) : s'.Steady := by
  by_cases hc : ∃ step, c = .time step
  · obtain ⟨step, rfl⟩ := hc
    obtain ⟨as, htrace, has⟩ := apply_time_trace hs happly
    refine (htrace.induct (P := fun s => s.Sound ∧ s.Steady)
      (A := fun a => (∃ t, a = .wait t) ∨ ∃ e, a = .fire e) (fun ha h hstep => ?_) has ⟨hs, h⟩).2
    refine ⟨hstep.sound h.1, hstep.steady h.1 h.2 ?_⟩
    obtain ⟨t, rfl⟩ | ⟨e, rfl⟩ := ha <;> trivial
  · intro p
    obtain ⟨as, htrace, -, -⟩ := apply_actions hs happly
    obtain ⟨tick, -, htick⟩ := (htrace.sound hs).world.exists_hasTick p
    obtain ⟨hticked, hbeats, -⟩ := armings_of_apply hs (fun step hstep => hc ⟨step, hstep⟩) happly htick
    rw [hticked, hbeats]
    exact (h p).imp_right fun hrests => rests_of_apply hs hrests happly

theorem steady_of_run {clock : Instant} {engines : List ε} {commands : List Command} {answers : List Answer}
    (hrun : (start clock engines).run commands = .ok (answers, s)) : s.Steady := by
  have hstart : (start clock engines : Simulation ε ρ).Steady := fun p => .inl rfl
  exact sound_induct (fun hs h happly => steady_of_apply hs h happly) (.start clock engines) hrun hstart

theorem ticked_eq_beats {clock : Instant} {engines : List ε} {commands : List Command} {answers : List Answer}
    (hrun : (start clock engines).run commands = .ok (answers, s)) {p : Nat} (hopen : s.world.isClosed p = false)
    (halive : s.world.isAlive p = true) : timesOf p s.ticked = timesOf p s.beats :=
  (steady_of_run hrun p).resolve_right fun hrests => hrests.elim hopen halive

theorem ticksFor_of_run {clock : Instant} {engines : List ε} {commands : List Command} {answers : List Answer}
    (hrun : (start clock engines).run commands = .ok (answers, s)) {p : Nat} {peer : Peer}
    (hp : s.world.peers[p]? = some peer) (hopen : s.world.isClosed p = false) (halive : s.world.isAlive p = true)
    (hfits : ∀ t ∈ timesOf p (collect calls (start clock engines : Simulation ε ρ) commands ++ s.beats),
      (t.add? peer.config.tick).isSome = true) :
    s.ticksFor p = (timesOf p (collect calls (start clock engines : Simulation ε ρ) commands)).length := by
  have hledger := (sound_of_run hrun).ledger
  have hlooping := looping_of_run hrun p peer.config.tick
    fun peer' hpeer => by rw [Option.some.inj (hpeer.symm.trans hp)]
  rw [updates_eq_calls (.start clock engines) hrun hopen, ← timesOf_append] at hlooping
  have hlength := hlooping.length_eq
  -- one tick for each call and each beat; the beats are the ticks that fired, and the rest is in the queue
  rw [List.filterMap_length_eq_length.2 hfits, ← ticksFor_add hledger, ticked_eq_beats hrun hopen halive,
    timesOf_append, List.length_append] at hlength
  omega

theorem ticksFor_of_fire (hs : s.Sound) {e : Entry Task} (hstep : Step s (.fire e) s') {p : Nat} {peer : Peer}
    (hp : s.world.peers[p]? = some peer) :
    (e.task ≠ .tick p → s'.ticksFor p = s.ticksFor p) ∧
    (e.task = .tick p → peer.isClosed = false → s.world.isAlive p = true →
      (e.fireAt.add? peer.config.tick).isSome = true → s'.ticksFor p = s.ticksFor p) ∧
    (e.task = .tick p → peer.isClosed = true ∨ s.world.isAlive p = false →
      s'.world = s.world ∧ s'.ticksFor p + 1 = s.ticksFor p) := by
  have hbalance := ticksFor_balance hs.ledger (hstep.sound hs).ledger (p := p)
  have hclosed := World.isClosed_eq hp
  have hother : ∀ {q}, e.task = .tick q → q ≠ p → e.task ≠ .tick p := by
    intro q hq hne ht
    exact hne (Task.tick.inj (hq.symm.trans ht))
  cases hstep.turn hs with
  | still _ he harmings hticked =>
    have hne : e.task ≠ .tick p := by
      intro ht
      have hnone := he e rfl
      rw [Entry.tick?, ht] at hnone
      cases hnone
    have hsame : s'.ticksFor p = s.ticksFor p :=
      hbalance [] [] (by rw [harmings, List.append_nil]) (by rw [hticked, List.append_nil])
    exact ⟨fun _ => hsame, fun ht => absurd ht hne, fun ht => absurd ht hne⟩
  | @beat _ q _ ht hq hopen halive harmings hticked =>
    by_cases hqp : q = p
    · subst hqp
      obtain rfl := Option.some.inj (hq.symm.trans hp)
      refine ⟨fun hne => absurd ht hne, ?_, ?_⟩
      · -- the tick is gone and has put another one into the queue
        intro _ _ _ hfits
        obtain ⟨u, hu⟩ := Option.isSome_iff_exists.1 hfits
        have hone := hbalance [u] [e.fireAt] (by rw [harmings, timesOf_append, timesOf_map_toList, hu]; rfl)
          (by rw [hticked, timesOf_append, timesOf_cons_self]; rfl)
        exact Nat.succ.inj hone
      · intro _ hrests
        have hrests : s.world.Rests q := ⟨(List.getElem?_eq_some_iff.1 hp).1, by rwa [hclosed]⟩
        exact (hrests.elim hopen halive).elim
    · have hne := hother ht hqp
      have hsame : s'.ticksFor p = s.ticksFor p :=
        hbalance [] [] (by rw [harmings, timesOf_append, timesOf_map_toList_of_ne hqp])
          (by rw [hticked, timesOf_append, timesOf_cons_of_ne hqp, timesOf_nil])
      exact ⟨fun _ => hsame, fun ht => absurd ht hne, fun ht => absurd ht hne⟩
  | @idle _ q ht hrests hworld harmings hticked =>
    by_cases hqp : q = p
    · subst hqp
      have hless : s'.ticksFor q + 1 = s.ticksFor q :=
        hbalance [] [e.fireAt] (by rw [harmings, List.append_nil]) (by rw [hticked, timesOf_append, timesOf_cons_self]; rfl)
      refine ⟨fun hne => absurd ht hne, ?_, fun _ _ => ⟨hworld, hless⟩⟩
      intro _ hopen halive
      exact (hrests.elim (hclosed.trans hopen) halive).elim
    · have hne := hother ht hqp
      have hsame : s'.ticksFor p = s.ticksFor p :=
        hbalance [] [] (by rw [harmings, List.append_nil])
          (by rw [hticked, timesOf_append, timesOf_cons_of_ne hqp, timesOf_nil])
      exact ⟨fun _ => hsame, fun ht => absurd ht hne, fun ht => absurd ht hne⟩

theorem ticksFor_of_apply (hs : s.Sound) {c : Command} (hc : ∀ step, c ≠ .time step) {answer : Answer}
    (h : s.apply c = .ok (answer, s')) {p : Nat} {peer : Peer} (hp : s.world.peers[p]? = some peer)
    (hfits : timesOf p (s.updates c) = [] ∨ (s.clock.add? peer.config.tick).isSome = true) :
    s'.ticksFor p = s.ticksFor p + (timesOf p (s.updates c)).length := by
  obtain ⟨as, htrace, -, -⟩ := apply_actions hs h
  obtain ⟨tick, -, htick⟩ := (htrace.sound hs).world.exists_hasTick p
  obtain rfl := World.HasTick.of_origins htrace.origins_prefix htick peer hp
  obtain ⟨hticked, -, harmings⟩ := armings_of_apply hs hc h htick
  have hclock : ∀ t ∈ timesOf p (s.updates c), t = s.clock := by
    intro t ht
    obtain ⟨x, hx, rfl⟩ := List.mem_map.1 ht
    have hx := (List.mem_filter.1 (List.mem_filter.1 hx).1).1
    cases c with
    | update | startMesh =>
      obtain ⟨q, -, rfl⟩ := List.mem_map.1 hx
      rfl
    | _ => cases hx
  have hall : ∀ t ∈ timesOf p (s.updates c), (t.add? peer.config.tick).isSome = true := by
    intro t ht
    rcases hfits with hnone | hfits
    · rw [hnone] at ht; cases ht
    · rwa [hclock t ht]
  have hbalance := ticksFor_balance hs.ledger (htrace.sound hs).ledger _ [] harmings (by rw [hticked, List.append_nil])
  rwa [List.filterMap_length_eq_length.2 hall] at hbalance

/-- An open peer that is alive has as many ticks in the queue as it was called. A task that fires changes
that number only if it is a tick for the peer that finds it at rest: that one does nothing and is gone. A
command that does not let time pass adds one tick for each update. A peer at rest stays so and gets no further
tick. -/
theorem one_tick_per_loop {clock : Instant} {engines : List ε} {commands : List Command} {answers : List Answer}
    (hrun : (start clock engines).run commands = .ok (answers, s)) {p : Nat} {peer : Peer}
    (hp : s.world.peers[p]? = some peer) :
    (peer.isClosed = false → s.world.isAlive p = true →
      (∀ t ∈ timesOf p (collect calls (start clock engines : Simulation ε ρ) commands ++ s.beats),
        (t.add? peer.config.tick).isSome = true) →
      s.ticksFor p = (timesOf p (collect calls (start clock engines : Simulation ε ρ) commands)).length) ∧
    (∀ (e : Entry Task) (rest : List (Entry Task)) (s' : Simulation ε ρ), s.queue = e :: rest →
      s.fire World.handler e rest = .ok s' →
        (e.task ≠ .tick p → s'.ticksFor p = s.ticksFor p) ∧
        (e.task = .tick p → peer.isClosed = false → s.world.isAlive p = true →
          (e.fireAt.add? peer.config.tick).isSome = true → s'.ticksFor p = s.ticksFor p) ∧
        (e.task = .tick p → peer.isClosed = true ∨ s.world.isAlive p = false →
          s'.world = s.world ∧ s'.ticksFor p + 1 = s.ticksFor p)) ∧
    (∀ (c : Command) (answer : Answer) (s' : Simulation ε ρ), (∀ step, c ≠ .time step) →
      s.apply c = .ok (answer, s') → timesOf p (s.updates c) = [] ∨ (s.clock.add? peer.config.tick).isSome = true →
        s'.ticksFor p = s.ticksFor p + (timesOf p (s.updates c)).length) ∧
    (peer.isClosed = true ∨ s.world.isAlive p = false →
      ∀ (more : List Command) (answers' : List Answer) (s' : Simulation ε ρ), s.run more = .ok (answers', s') →
        s'.world.Rests p ∧ timesOf p s'.beats = timesOf p s.beats ∧ ∃ times,
          timesOf p s'.ticked = timesOf p s.ticked ++ times ∧ s.ticksFor p = s'.ticksFor p + times.length) := by
  have hs := sound_of_run hrun
  have hlt := (List.getElem?_eq_some_iff.1 hp).1
  have hclosed := World.isClosed_eq hp
  refine ⟨?_, ?_, ?_, ?_⟩
  · intro hopen halive hfits
    exact ticksFor_of_run hrun hp (hclosed.trans hopen) halive hfits
  · intro e rest s' hq hfire
    exact ticksFor_of_fire hs (fire_step hs hq hfire) hp
  · intro c answer s' hc happly hfits
    exact ticksFor_of_apply hs hc happly hp hfits
  · intro hrests more answers' s' hmore
    obtain ⟨as, htrace, -, -⟩ := run_trace hs hmore
    have hrests : s.world.Rests p := ⟨hlt, by rwa [hclosed]⟩
    have hrests' : s'.world.Rests p := htrace.rests (fades_of_run hs hmore) hrests
    obtain ⟨harmings, hbeats⟩ := ticks_of_rests hs hrests hmore
    obtain ⟨times, htimes⟩ : ∃ times, timesOf p s'.ticked = timesOf p s.ticked ++ times := by
      obtain ⟨fs, hfired, -⟩ := htrace.fired_since
      rw [ticked, hfired, List.filterMap_append, timesOf_append]
      exact ⟨_, rfl⟩
    have hbalance := ticksFor_balance hs.ledger (htrace.sound hs).ledger [] times (by rw [harmings, List.append_nil]) htimes
    exact ⟨hrests', hbeats, times, htimes, hbalance.symm⟩

/-- A peer that is updated twice and then ticks. -/
def twice : List Command :=
  [.newPeer 0 jittery none, .update 0, .send 0 [1], .time .runNext, .update 0, .time (.advance ⟨50 * 10 ^ 6, by decide⟩)]

theorem one_tick_per_loop_twice : ∃ answers s, soloRecorder.run twice = .ok (answers, s) ∧
    s.beats.length = 4 ∧ s.ticksFor 0 = 2 := by
  obtain ⟨answers, s, peer, hrun, hfind⟩ := exists_of_run soloRecorder twice
    (fun s => (s.world.peers[0]?).filter fun peer => !peer.isClosed && s.world.isAlive 0 && s.beats.length = 4 &&
      (timesOf 0 (collect calls soloRecorder twice ++ s.beats)).all fun t => (t.add? peer.config.tick).isSome)
    (by decide +kernel)
  obtain ⟨hp, hfound⟩ := Option.filter_eq_some_iff.1 hfind
  simp only [Bool.and_eq_true, Bool.not_eq_true', decide_eq_true_eq, List.all_eq_true] at hfound
  obtain ⟨⟨⟨hopen, halive⟩, hbeats⟩, hfits⟩ := hfound
  have hcalls : (timesOf 0 (collect calls soloRecorder twice)).length = 2 := by decide +kernel
  exact ⟨answers, s, hrun, hbeats, ((one_tick_per_loop hrun hp).1 hopen halive hfits).trans hcalls⟩

end Simulation

end VirtualMesh
