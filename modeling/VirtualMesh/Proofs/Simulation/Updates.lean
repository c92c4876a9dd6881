import VirtualMesh.Proofs.Simulation.Convergence
import VirtualMesh.Proofs.Simulation.Rate

/-!
# Updates of engines

An engine is updated by the calls on its open peers, by their ticks, and directly. Together with the rate of
ticks this says how often an engine has been updated when the clock has been advanced, and in particular how
often one that takes part in a mesh.
-/

namespace VirtualMesh

/-- The count goes up by one with each update of an engine, and stays as it is otherwise. -/
structure Consensus.Counts {ε : Type} [Consensus ε] (count : ε → Nat) : Prop where
  update : ∀ x, count (Consensus.update x).1 = count x + 1
  receive : ∀ x message, count (Consensus.receive x message).1 = count x
  propose : ∀ x hasLink state y outgoing, Consensus.propose x hasLink state = .ok (y, outgoing) → count y = count x
  attach : ∀ x links y, Consensus.attach? x links = some y → count y = count x
  reject : ∀ x error y, Consensus.reject? x error = some y → count y = count x

def Engine.updates : Engine → Nat
  | .recording e => e.updates
  | .gossip e => e.ticks

theorem Engine.counts_updates : Consensus.Counts Engine.updates where
  update x := by cases x <;> rfl
  receive x message := by
    cases x with
    | recording e => rfl
    | gossip e =>
      show (e.receive message).1.ticks = e.ticks
      unfold GossipEngine.receive
      split <;> rfl
  propose x hasLink state y outgoing h := by
    cases x with
    | recording e => cases h; rfl
    | gossip e =>
      simp only [Consensus.propose, Engine.propose, GossipEngine.propose] at h
      split at h
      · cases h
      · cases h; rfl
  attach x links y h := by
    cases x with
    | recording e => cases h
    | gossip e => cases h; rfl
  reject x error y h := by
    cases x with
    | recording e => cases h; rfl
    | gossip e => cases h

def Action.updated? : Action → Option Nat
  | .update p => some p
  | _ => none

def Action.direct? : Action → Option Nat
  | .updateEngine i => some i
  | _ => none

def Command.direct? : Command → Option Nat
  | .updateAt i => some i
  | _ => none

/-- Commands that update peers from outside. -/
def Command.isCall : Command → Bool
  | .update _ | .startMesh => true
  | _ => false

theorem timesOf_map_const (p : Nat) (t : Instant) (M : List Nat) :
    timesOf p (M.map (·, t)) = List.replicate (M.count p) t := by
  induction M with
  | nil => rfl
  | cons q M ih =>
    rw [List.map_cons]
    by_cases hq : q = p
    · subst hq
      rw [timesOf_cons_self, ih, List.count_cons_self, List.replicate_succ]
    · rw [timesOf_cons_of_ne hq, ih, List.count_cons_of_ne hq]

theorem countP_of_timesOf {k : Nat} (f : Nat → Bool) : ∀ {M : List Nat} {l : List (Nat × Instant)}, M.Nodup →
    (∀ p ∈ M, (timesOf p l).length = k) → (∀ x ∈ l, x.1 ∈ M) → l.countP (fun x => f x.1) = M.countP f * k
  | [], l, _, _, hl => by
    cases l with
    | nil => simp
    | cons x l => cases hl x List.mem_cons_self
  | p :: M, l, hM, hk, hl => by
    obtain ⟨hp, hM⟩ := List.nodup_cons.1 hM
    obtain ⟨hkp, hk⟩ := List.forall_mem_cons.1 hk
    -- the first peer and the others share out the list
    have hself : (l.filter fun x => x.1 = p).countP (fun x => f x.1) = if f p then k else 0 := by
      have hsame : ∀ x ∈ l.filter fun x => x.1 = p, f x.1 = f p := by
        intro x hx
        rw [of_decide_eq_true (List.mem_filter.1 hx).2]
      rw [timesOf, List.length_map] at hkp
      cases hf : f p with
      | true => rw [List.countP_eq_length.2 fun x hx => (hsame x hx).trans hf, hkp]; rfl
      | false => rw [List.countP_eq_zero.2 fun x hx => by rw [hsame x hx, hf]; simp]; rfl
    have hrest : (l.filter fun x => !decide (x.1 = p)).countP (fun x => f x.1) = M.countP f * k := by
      refine countP_of_timesOf f hM ?_ ?_
      · intro q hq
        have hne : q ≠ p := fun hqp => hp (hqp ▸ hq)
        rw [← hk q hq, timesOf, timesOf, List.filter_filter]
        congr 2
        refine List.filter_congr fun x _ => ?_
        by_cases hx : x.1 = q <;> simp [hx, hne]
      · intro x hx
        obtain ⟨hx, hne⟩ := List.mem_filter.1 hx
        exact (List.mem_cons.1 (hl x hx)).resolve_left (by simpa using hne)
    rw [List.countP_eq_countP_filter_add l (fun x => f x.1) fun x => x.1 = p, hself, hrest, List.countP_cons]
    cases f p <;> simp [Nat.add_mul, Nat.add_comm]

namespace World

variable {ε ρ : Type} {w w' : World ε ρ} {m : Mesh} {engines : List Nat} {first source : Nat} {config : Config}

/-- The mesh was built on these engines, one for each place, with peers numbered from `first` on. -/
structure Hosts (w : World ε ρ) (m : Mesh) (engines : List Nat) (first source : Nat) (config : Config) : Prop where
  mesh : m = .number engines first
  peers : ∀ (n : Nat) (x : Nat × Nat), (Mesh.targets engines)[n]? = some x →
    w.origins[first + n]? = some (.fresh x.1 source config)

namespace Hosts

theorem mono (h : w.Hosts m engines first source config) (horigins : w.origins <+: w'.origins) :
    w'.Hosts m engines first source config where
  mesh := h.mesh
  peers n x hx := by
    obtain ⟨hlt, heq⟩ := List.getElem?_eq_some_iff.1 (h.peers n x hx)
    rw [← heq]
    exact List.prefix_iff_getElem?.1 horigins _ hlt

theorem origin_of_row (h : w.Hosts m engines first source config) {row : List (Nat × Nat)} (hrow : row ∈ m.rows)
    {x : Nat × Nat} (hx : x ∈ row) :
    ∃ a, engines[x.1]? = some a ∧ w.origins[x.2]? = some (.fresh a source config) := by
  obtain ⟨place, hplace⟩ := List.getElem?_of_mem hrow
  rw [h.mesh] at hplace
  obtain ⟨a, n, hn, htarget, ha, -⟩ := Mesh.targets_of_row hplace hx
  exact ⟨a, ha, by rw [hn]; exact h.peers n (a, x.1) htarget⟩

theorem leadsTo_eq (h : w.Hosts m engines first source config) (i : Nat) {row : List (Nat × Nat)}
    (hrow : row ∈ m.rows) {x : Nat × Nat} (hx : x ∈ row) : w.leadsTo i x.2 = decide (engines[x.1]? = some i) := by
  obtain ⟨a, ha, horigin⟩ := h.origin_of_row hrow hx
  obtain ⟨peer, hpeer, heq⟩ := exists_of_origin horigin
  have hengine : peer.engine = a := congrArg Peer.engine heq
  simp [leadsTo, hpeer, ha, hengine]

theorem countP_peers (h : w.Hosts m engines first source config) (i : Nat) :
    m.peers.countP (w.leadsTo i) = engines.count i * (engines.length - 1) := by
  have hrows : ∀ row ∈ m.rows, ∀ x ∈ row, w.leadsTo i x.2 = decide (engines[x.1]? = some i) :=
    fun _ hrow _ hx => h.leadsTo_eq i hrow hx
  rw [← Mesh.countP_range_getElem?]
  obtain ⟨rfl, -⟩ := h
  exact Mesh.countP_peers_number hrows

theorem hasTick (h : w.Hosts m engines first source config) : ∀ p ∈ m.peers, w.HasTick p config.tick := by
  intro p hp peer hpeer
  obtain ⟨place, row, hrow, hp⟩ := Mesh.mem_peers.1 hp
  obtain ⟨x, hx, rfl⟩ := List.mem_map.1 hp
  obtain ⟨a, -, horigin⟩ := h.origin_of_row (List.mem_of_getElem? hrow) hx
  exact congrArg (fun o : Peer => o.config.tick) (Option.some.inj ((origin_of_peer hpeer).symm.trans horigin))

end Hosts

def Meshed (w : World ε ρ) : Prop :=
  ∀ m, w.mesh = some m → ∃ engines first source config, w.Hosts m engines first source config

theorem meshed_buildMesh [NormalSource ρ] (h : w.buildMesh engines config = .ok w') : w'.Meshed := by
  obtain ⟨-, rfl⟩ := Simulation.buildMesh_eq_ok h
  intro m hm
  cases hm
  refine ⟨engines, w.peers.length, w.sources.length, config, rfl, ?_⟩
  intro n x hx
  rw [origins, List.map_append, List.getElem?_append_right (by simp), List.length_map, Nat.add_sub_cancel_left,
    Simulation.meshPeers, List.map_map, List.getElem?_map, hx]
  rfl

end World

namespace Simulation

variable {ε ρ : Type} [NormalSource ρ] [Consensus ε] {s s' s₁ : Simulation ε ρ} {a : Action} {as : List Action}

omit [NormalSource ρ] [Consensus ε] in
theorem count_setEngine {count : ε → Nat} {w : World ε ρ} {i j : Nat} {x y z : ε} {k : Nat}
    (hi : w.engines[i]? = some x) (hj : w.engines[j]? = some y) (hz : count z = count y + k) :
    ∃ z', (w.setEngine j z).engines[i]? = some z' ∧ count z' = count x + if j = i then k else 0 := by
  by_cases hij : j = i
  · subst hij
    obtain rfl := Option.some.inj (hj.symm.trans hi)
    exact ⟨z, List.getElem?_set_self (List.getElem?_eq_some_iff.1 hj).1, by rw [if_pos rfl, hz]⟩
  · exact ⟨x, (List.getElem?_set_ne hij).trans hi, by rw [if_neg hij, Nat.add_zero]⟩

omit [NormalSource ρ] [Consensus ε] in
theorem count_setEngine_of_eq {count : ε → Nat} {w : World ε ρ} {i j : Nat} {x y z : ε}
    (hi : w.engines[i]? = some x) (hj : w.engines[j]? = some y) (hz : count z = count y) :
    ∃ z', (w.setEngine j z).engines[i]? = some z' ∧ count z' = count x := by
  simpa using count_setEngine (k := 0) hi hj hz

theorem Step.count_engine {count : ε → Nat} (hcount : Consensus.Counts count) (hstep : Step s a s') {i : Nat}
    {leads : Nat → Bool} (hleads : ∀ p, p < s.world.peers.length → leads p = s.world.leadsTo i p) {x : ε}
    (hi : s.world.engines[i]? = some x) : ∃ y, s'.world.engines[i]? = some y ∧
      count y + s.beats.countP (fun b => leads b.1) = count x + s'.beats.countP (fun b => leads b.1) +
        a.updated?.toList.countP leads + a.direct?.toList.count i := by
  have hpeer : ∀ {p : Nat} {peer : Peer}, s.world.peers[p]? = some peer → leads p = decide (peer.engine = i) := by
    intro p peer hp
    rw [hleads p (List.getElem?_eq_some_iff.1 hp).1, World.leadsTo, hp, Option.any_some]
  cases hstep with
  | @deliver e rest p payload delay peer stats z hq ht hp hd hs hz =>
    obtain ⟨y, hy, hcounty⟩ := count_setEngine_of_eq hi hz (hcount.receive z payload)
    refine ⟨y, hy, ?_⟩
    simp [hcounty, Action.updated?, Action.direct?]
  | @tick e rest p peer z hq ht halive hp hopen hz =>
    obtain ⟨y, hy, hcounty⟩ := count_setEngine hi hz (hcount.update z)
    refine ⟨y, by rwa [Machine.world_putAll], ?_⟩
    have htick : e.tick? = some (p, e.fireAt) := by rw [Entry.tick?, ht]; rfl
    by_cases hpi : peer.engine = i
    · simp [hcounty, hpi, htick, hpeer hp, Action.updated?, Action.direct?]
      omega
    · simp [hcounty, hpi, htick, hpeer hp, Action.updated?, Action.direct?]
  | @update p peer z hp hopen hz =>
    obtain ⟨y, hy, hcounty⟩ := count_setEngine hi hz (hcount.update z)
    refine ⟨y, by rwa [Machine.world_putAll], ?_⟩
    by_cases hpi : peer.engine = i
    · simp [hcounty, hpi, hpeer hp, Action.updated?, Action.direct?]
      omega
    · simp [hcounty, hpi, hpeer hp, Action.updated?, Action.direct?]
  | @updateEngine j z hz =>
    obtain ⟨y, hy, hcounty⟩ := count_setEngine hi hz (hcount.update z)
    refine ⟨y, hy, ?_⟩
    by_cases hji : j = i
    · simp [hcounty, hji, Action.updated?, Action.direct?]
      omega
    · simp [hcounty, hji, Action.updated?, Action.direct?]
  | @receive j message z hz =>
    obtain ⟨y, hy, hcounty⟩ := count_setEngine_of_eq hi hz (hcount.receive z message)
    exact ⟨y, hy, by simp [hcounty, Action.updated?, Action.direct?]⟩
  | @propose j state z z' outgoing hz hz' =>
    obtain ⟨y, hy, hcounty⟩ := count_setEngine_of_eq hi hz (hcount.propose z _ state z' outgoing hz')
    exact ⟨y, hy, by simp [hcounty, Action.updated?, Action.direct?]⟩
  | @reject j error z z' hz hz' =>
    obtain ⟨y, hy, hcounty⟩ := count_setEngine_of_eq hi hz (hcount.reject z error z' hz')
    exact ⟨y, hy, by simp [hcounty, Action.updated?, Action.direct?]⟩
  | @attach j peers z z' hpeers hz hz' =>
    obtain ⟨y, hy, hcounty⟩ := count_setEngine_of_eq hi hz (hcount.attach z _ z' hz')
    exact ⟨y, hy, by simp [hcounty, Action.updated?, Action.direct?]⟩
  | @drop e rest p payload delay peer stats hq ht =>
    exact ⟨x, hi, by simp [Action.updated?, Action.direct?]⟩
  | @idle e rest p outcome hq ht ho =>
    have hne : outcome ≠ .ticked .armed := by rcases ho with ⟨rfl, -⟩ | ⟨rfl, -⟩ <;> simp
    exact ⟨x, hi, by simp [hne, Action.updated?, Action.direct?]⟩
  | _ => exact ⟨x, hi, by simp [Action.updated?, Action.direct?]⟩

theorem Trace.count_engine {count : ε → Nat} (hcount : Consensus.Counts count) (htrace : Trace s as s') {i : Nat}
    {x : ε} (hi : s.world.engines[i]? = some x) : ∃ y, s'.world.engines[i]? = some y ∧
      count y + s.beats.countP (fun b => s'.world.leadsTo i b.1) =
        count x + s'.beats.countP (fun b => s'.world.leadsTo i b.1) +
          (as.filterMap Action.updated?).countP (s'.world.leadsTo i) + (as.filterMap Action.direct?).count i := by
  induction htrace generalizing x with
  | nil => exact ⟨x, hi, by simp⟩
  | @cons s s₁ s' a as hstep htrace ih =>
    -- peers only come in at the end, so all states agree on where those lead that were there
    have hleads : ∀ p, p < s.world.peers.length → s'.world.leadsTo i p = s.world.leadsTo i p :=
      fun p hp => (Trace.cons hstep htrace).leadsTo_eq hp
    obtain ⟨y, hy, hcounty⟩ := hstep.count_engine hcount hleads hi
    obtain ⟨z, hz, hcountz⟩ := ih hy
    refine ⟨z, hz, ?_⟩
    have hupdated : ((a :: as).filterMap Action.updated?).countP (s'.world.leadsTo i) =
        a.updated?.toList.countP (s'.world.leadsTo i) + (as.filterMap Action.updated?).countP (s'.world.leadsTo i) := by
      cases h : a.updated? <;> simp [h, Nat.add_comm, List.countP_cons]
    have hdirect : ((a :: as).filterMap Action.direct?).count i =
        a.direct?.toList.count i + (as.filterMap Action.direct?).count i := by
      cases h : a.direct? <;> simp [h, Nat.add_comm, List.count_cons]
    omega

/-! ## Updates of a run -/

/-- The updates of a command are those that `updates` reads off it, and the direct one if it is that. -/
def Updates (s : Simulation ε ρ) (updated direct : List Nat) (s' : Simulation ε ρ) : Prop :=
  ∃ as, Trace s as s' ∧ as.filterMap Action.updated? = updated ∧ as.filterMap Action.direct? = direct

theorem updates_of_apply (hs : s.Sound) {c : Command} {answer : Answer} (h : s.apply c = .ok (answer, s')) :
    s.Updates ((s.updates c).map Prod.fst) c.direct?.toList s' := by
  have hnone : ∀ {as : List Action}, (∀ a ∈ as, a.updated? = none ∧ a.direct? = none) →
      as.filterMap Action.updated? = [] ∧ as.filterMap Action.direct? = [] := fun has =>
    ⟨List.filterMap_eq_nil_iff.2 fun a ha => (has a ha).1, List.filterMap_eq_nil_iff.2 fun a ha => (has a ha).2⟩
  have hall : ∀ {peers : List Nat}, (∀ p ∈ peers, p < s.world.peers.length) →
      s.Updates (((peers.map (·, s.clock)).filter fun x => !s.world.isClosed x.1).map Prod.fst) [] (s.updateAll peers) := by
    intro peers hlt
    refine ⟨_, updateAll_actions hs hlt, ?_, ?_⟩
    · rw [List.filterMap_map, List.filter_map, List.map_map]
      simp [Function.comp_def, Action.updated?]
    · simp [Action.direct?]
  cases course_of_apply hs h with
  | calm hcalm h =>
    obtain ⟨as, htrace, has, -⟩ := h
    obtain ⟨hupdated, hdirect⟩ := hnone fun a ha => by
      have hcalm := has a ha
      cases a <;> first | exact ⟨rfl, rfl⟩ | cases hcalm
    refine ⟨as, htrace, by rw [hupdated, updates_of_isCalm hcalm]; rfl, ?_⟩
    rw [hdirect]
    cases c <;> first | rfl | cases hcalm
  | time htrace has =>
    obtain ⟨hupdated, hdirect⟩ := hnone fun a ha => by
      obtain ⟨t, rfl⟩ | ⟨e, rfl⟩ := has a ha <;> exact ⟨rfl, rfl⟩
    exact ⟨_, htrace, hupdated, hdirect⟩
  | update hp =>
    rw [updates, calls, hp]
    exact hall (List.forall_mem_singleton.2 (hs.world.peerOfHandle_lt hp))
  | updateAt hstep => exact ⟨_, .single hstep, rfl, rfl⟩
  | startMesh hm =>
    rw [updates, calls, hm]
    exact hall (hs.world.mesh _ hm)

theorem updates_of_run (hs : s.Sound) {cs : List Command} {answers : List Answer}
    (h : s.run cs = .ok (answers, s')) :
    s.Updates ((s.collect updates cs).map Prod.fst) (cs.filterMap Command.direct?) s' := by
  induction cs generalizing s answers with
  | nil =>
    cases h
    exact ⟨[], .nil, rfl, rfl⟩
  | cons c cs ih =>
    obtain ⟨answer, s₁, rest, happly, hrun⟩ := run_cons_eq_ok h
    obtain ⟨as, htrace, hupdated, hdirect⟩ := updates_of_apply hs happly
    obtain ⟨bs, htrace', hupdated', hdirect'⟩ := ih (htrace.sound hs) hrun
    refine ⟨as ++ bs, htrace.append htrace', ?_, ?_⟩
    · rw [List.filterMap_append, hupdated, hupdated', collect, happly, List.map_append]
    · rw [List.filterMap_append, hdirect, hdirect']
      cases hc : c.direct? <;> simp [hc]

theorem count_of_run {clock : Instant} {engines : List ε} {commands : List Command} {answers : List Answer}
    (hrun : (start clock engines).run commands = .ok (answers, s)) {count : ε → Nat}
    (hcount : Consensus.Counts count) {i : Nat} {x : ε} (hi : engines[i]? = some x) :
    ∃ y, s.world.engines[i]? = some y ∧ count y = count x + (commands.filterMap Command.direct?).count i +
      (collect updates (start clock engines : Simulation ε ρ) commands ++ s.beats).countP
        fun u => s.world.leadsTo i u.1 := by
  obtain ⟨as, htrace, hupdated, hdirect⟩ := updates_of_run (.start clock engines) hrun
  obtain ⟨y, hy, hcounty⟩ := htrace.count_engine hcount (i := i) hi
  refine ⟨y, hy, ?_⟩
  rw [hupdated, hdirect, List.countP_map] at hcounty
  have hstart : beats (start clock engines : Simulation ε ρ) = [] := rfl
  rw [hstart, List.countP_nil] at hcounty
  rw [List.countP_append]
  simp only [Function.comp_def] at hcounty
  omega

theorem length_updates_of_run {clock : Instant} {engines : List ε} {commands : List Command} {answers : List Answer}
    (hrun : (start clock engines).run commands = .ok (answers, s)) (hlater : ∀ e ∈ s.queue, ¬ e.fireAt ≤ s.clock)
    {p : Nat} {tick : Duration} (hpos : 0 < tick.nanos) (htick : s.world.HasTick p tick)
    (hopen : s.world.isClosed p = false) (halive : s.world.isAlive p = true) :
    (timesOf p (collect updates (start clock engines : Simulation ε ρ) commands ++ s.beats)).length =
      ((timesOf p (collect calls (start clock engines : Simulation ε ρ) commands)).map fun t =>
        1 + rounds tick s.clock t).sum := by
  have hlooping := looping_of_run hrun p
  rw [updates_eq_calls (.start clock engines) hrun hopen] at hlooping
  rw [timesOf_append, List.length_append, updates_eq_calls (.start clock engines) hrun hopen, sum_succ_rounds,
    hlooping.length_beats (sound_of_run hrun) hlater hpos htick (ticked_eq_beats hrun hopen halive)]

/-! ## Meshes -/

theorem Step.meshed (h : s.world.Meshed) (ha : ∀ m, a ≠ .setMesh (some m)) (hstep : Step s a s') :
    s'.world.Meshed := by
  intro m hm
  have hmesh : s.world.mesh = some m := by
    rcases hstep.mesh_eq with hmesh | ⟨mesh, rfl, hmesh⟩
    · rw [← hmesh, hm]
    · rw [hmesh] at hm
      exact absurd (congrArg Action.setMesh hm) (ha m)
  obtain ⟨engines, first, source, config, hhosts⟩ := h m hmesh
  exact ⟨engines, first, source, config, hhosts.mono hstep.origins_prefix⟩

theorem meshed_of_apply (hs : s.Sound) (h : s.world.Meshed) {c : Command} {answer : Answer}
    (happly : s.apply c = .ok (answer, s')) : s'.world.Meshed := by
  by_cases hbuild : ∃ config engines, c = .buildMesh config engines
  · obtain ⟨config, engines, rfl⟩ := hbuild
    simp only [apply, bind_eq_ok] at happly
    obtain ⟨es, -, happly⟩ := happly
    split at happly
    · rw [pure_eq_ok] at happly
      cases happly
      exact h
    · rename_i w hw
      rw [pure_eq_ok] at happly
      cases happly
      exact World.meshed_buildMesh hw
  · -- any other command leaves the mesh alone or drops it
    obtain ⟨as, htrace, -, has⟩ := apply_actions hs happly
    refine htrace.induct (P := fun s => s.world.Meshed) (fun ha h hstep => hstep.meshed h ?_) has h
    rintro m rfl
    obtain hnone | hbuild' : some m = none ∨ ∃ config engines, c = .buildMesh config engines := ha
    · cases hnone
    · exact hbuild hbuild'

theorem meshed_of_run {clock : Instant} {engines : List ε} {commands : List Command} {answers : List Answer}
    (hrun : (start clock engines).run commands = .ok (answers, s)) : s.world.Meshed := by
  have hstart : (start clock engines : Simulation ε ρ).world.Meshed := fun m hm => nomatch hm
  exact sound_induct (P := fun s => s.world.Meshed) (fun hs h happly => meshed_of_apply hs h happly)
    (.start clock engines) hrun hstart

omit [NormalSource ρ] [Consensus ε] in
theorem calls_of_not_isCall {c : Command} (hc : c.isCall = false) : s.calls c = [] := by
  cases c <;> first | rfl | cases hc

theorem updates_of_start {before rest : List Command} {answers₁ : List Answer} (hrun : s.run before = .ok (answers₁, s₁))
    {m : Mesh} (hm : s₁.world.mesh = some m) (hcalls : ∀ c ∈ before ++ rest, c.isCall = false)
    (hopen : ∀ p ∈ m.peers, s₁.world.isClosed p = false) :
    s.collect updates (before ++ .startMesh :: rest) = m.peers.map (·, s₁.clock) := by
  have hnone : ∀ (s : Simulation ε ρ), ∀ c ∈ before ++ rest, s.updates c = [] := by
    intro s c hc
    rw [updates, calls_of_not_isCall (hcalls c hc)]
    rfl
  have hstart : s₁.updates .startMesh = m.peers.map (·, s₁.clock) := by
    rw [updates, calls, hm]
    refine List.filter_eq_self.2 fun x hx => ?_
    obtain ⟨p, hp, rfl⟩ := List.mem_map.1 hx
    simp [hopen p hp]
  rw [collect_append _ hrun, collect_eq_nil fun s c hc => hnone s c (List.mem_append_left _ hc), List.nil_append,
    collect, hstart]
  split
  · exact List.append_nil _
  · rw [collect_eq_nil fun s c hc => hnone s c (List.mem_append_right _ hc), List.append_nil]

theorem countP_updates_of_start {clock : Instant} {engines : List ε} {before rest : List Command}
    {answers₁ answers : List Answer} {m : Mesh} (hbefore : (start clock engines).run before = .ok (answers₁, s₁))
    (hm : s₁.world.mesh = some m) (hcalls : ∀ c ∈ before ++ rest, c.isCall = false)
    (hrun : (start clock engines).run (before ++ .startMesh :: rest) = .ok (answers, s))
    (hlater : ∀ e ∈ s.queue, ¬ e.fireAt ≤ s.clock)
    (hpeers : ∀ p ∈ m.peers, s.world.isClosed p = false ∧ s.world.isAlive p = true) :
    ∃ places first source config, s.world.Hosts m places first source config ∧ ∀ i,
      (collect updates (start clock engines : Simulation ε ρ) (before ++ .startMesh :: rest) ++ s.beats).countP
        (fun u => s.world.leadsTo i u.1) =
          places.count i * (places.length - 1) * (1 + rounds config.tick s.clock s₁.clock) := by
  have hs := sound_of_run hrun
  obtain ⟨answers₁', s₁', answers₂, hbefore', hafter⟩ := run_append_eq_ok hrun
  obtain rfl : s₁ = s₁' := congrArg Prod.snd (Except.ok.inj (hbefore.symm.trans hbefore'))
  obtain ⟨as, htrace, -, -⟩ := run_trace (sound_of_run hbefore) hafter
  obtain ⟨places, first, source, config, hhosts₁⟩ := meshed_of_run hbefore m hm
  have hhosts := hhosts₁.mono htrace.origins_prefix
  have hupdates := updates_of_start hbefore hm hcalls fun p hp => htrace.isOpen (hpeers p hp).1
  have hnodup : m.peers.Nodup := by
    rw [hhosts.mesh]
    exact Mesh.nodup_peers_number places first
  refine ⟨places, first, source, config, hhosts, fun i => ?_⟩
  rw [← hhosts.countP_peers i]
  refine countP_of_timesOf (s.world.leadsTo i) hnodup ?_ ?_
  · intro p hp
    obtain ⟨hopen, halive⟩ := hpeers p hp
    have hlt : p < s.world.peers.length := by
      have hle := htrace.origins_prefix.length_le
      rw [World.length_origins, World.length_origins] at hle
      exact Nat.lt_of_lt_of_le ((sound_of_run hbefore).world.mesh m hm p hp) hle
    have htick := hhosts.hasTick p hp
    have hpos : 0 < config.tick.nanos := by
      rw [← htick _ (List.getElem?_eq_getElem hlt)]
      exact Config.tick_pos (hs.world.valid _ (List.getElem_mem hlt))
    rw [length_updates_of_run hrun hlater hpos htick hopen halive, ← updates_eq_calls (.start clock engines) hrun hopen,
      hupdates, timesOf_map_const, List.count_eq_one_of_mem hnodup hp]
    rfl
  · intro x hx
    rcases List.mem_append.1 hx with hx | hx
    · rw [hupdates] at hx
      obtain ⟨p, hp, rfl⟩ := List.mem_map.1 hx
      exact hp
    · -- a peer that was never updated from outside has no ticks that update it
      by_contra hp
      have hlooping := looping_of_run hrun x.1
      rw [hupdates, timesOf_map_const, List.count_eq_zero_of_not_mem hp] at hlooping
      obtain ⟨tick, hpos, htick⟩ := hs.world.exists_hasTick x.1
      have hnil := hlooping.beats_eq_nil hs hlater hpos htick
      have hmem : x.2 ∈ timesOf x.1 s.beats := List.mem_map_of_mem (List.mem_filter.2 ⟨hx, decide_eq_true rfl⟩)
      rw [hnil] at hmem
      cases hmem

/-- When the clock has been advanced, a peer that is open and alive has updated its engine once at each call,
and once for each interval that has passed since. An engine has been updated directly and through the peers
that lead to it; if there was a single start of a mesh and the peers of the mesh are open and alive, that is
once for each of its places, each other place and each update of one peer. -/
theorem tick_rate {clock : Instant} {engines : List ε} {commands : List Command} {answers₀ : List Answer}
    {s₀ : Simulation ε ρ} {span : Duration} {answer : Answer}
    (hrun : (start clock engines).run commands = .ok (answers₀, s₀))
    (hadvance : s₀.apply (.time (.advance span)) = .ok (answer, s)) :
    (∀ (p : Nat) (peer : Peer), s.world.peers[p]? = some peer → peer.isClosed = false → s.world.isAlive p = true →
      (timesOf p (collect updates (start clock engines : Simulation ε ρ) commands ++ s.beats)).length =
        ((timesOf p (collect calls (start clock engines : Simulation ε ρ) commands)).map fun t =>
          1 + rounds peer.config.tick s.clock t).sum) ∧
    (∀ count : ε → Nat, Consensus.Counts count → ∀ (i : Nat) (x : ε), engines[i]? = some x →
      ∃ y, s.world.engines[i]? = some y ∧ count y = count x + (commands.filterMap Command.direct?).count i +
        (collect updates (start clock engines : Simulation ε ρ) commands ++ s.beats).countP
          fun u => s.world.leadsTo i u.1) ∧
    (∀ (before rest : List Command) (answers₁ : List Answer) (s₁ : Simulation ε ρ) (m : Mesh),
      commands = before ++ .startMesh :: rest → (start clock engines).run before = .ok (answers₁, s₁) →
      s₁.world.mesh = some m → (∀ c ∈ before ++ rest, c.isCall = false) →
      (∀ p ∈ m.peers, s.world.isClosed p = false ∧ s.world.isAlive p = true) →
        ∃ places first source config, s.world.Hosts m places first source config ∧
          ∀ count : ε → Nat, Consensus.Counts count → ∀ (i : Nat) (x : ε), engines[i]? = some x →
            ∃ y, s.world.engines[i]? = some y ∧ count y = count x + (commands.filterMap Command.direct?).count i +
              places.count i * (places.length - 1) * (1 + rounds config.tick s.clock s₁.clock)) := by
  -- the advance itself calls nothing, so the calls are those of the whole run
  have hlast : s₀.run [.time (.advance span)] = .ok ([answer], s) := by
    simp only [run, hadvance]
    rfl
  have hwhole := run_append hrun hlast
  have hcollect : ∀ f : Simulation ε ρ → Command → List (Nat × Instant), f s₀ (.time (.advance span)) = [] →
      collect f (start clock engines) (commands ++ [.time (.advance span)]) = collect f (start clock engines) commands := by
    intro f hf
    rw [collect_append _ hrun, collect, hf, hadvance]
    exact List.append_nil _
  have hdirect : (commands ++ [Command.time (.advance span)]).filterMap Command.direct? =
      commands.filterMap Command.direct? := by
    rw [List.filterMap_append]
    exact List.append_nil _
  have hs := sound_of_run hwhole
  have hlater : ∀ e ∈ s.queue, ¬ e.fireAt ≤ s.clock := by
    simp only [apply, bind_eq_ok, attempt_eq_ok, pure_eq_ok] at hadvance
    obtain ⟨⟨ran, s'⟩, hran, heq⟩ := hadvance
    cases heq
    exact Machine.later_of_advance hran hs.ledger
  refine ⟨?_, ?_, ?_⟩
  · intro p peer hp hopen halive
    have hpos := Config.tick_pos (hs.world.valid peer (List.mem_of_getElem? hp))
    have hlength := length_updates_of_run hwhole hlater hpos
      (fun peer' hpeer => by rw [Option.some.inj (hpeer.symm.trans hp)]) ((World.isClosed_eq hp).trans hopen) halive
    rwa [hcollect updates rfl, hcollect calls rfl] at hlength
  · intro count hcount i x hi
    rw [← hcollect updates rfl, ← hdirect]
    exact count_of_run hwhole hcount hi
  · rintro before rest answers₁ s₁ m rfl hbefore hm hcalls hpeers
    rw [List.append_assoc, List.cons_append] at hwhole
    have hcalls' : ∀ c ∈ before ++ (rest ++ [.time (.advance span)]), c.isCall = false := by
      rw [← List.append_assoc]
      intro c hc
      rcases List.mem_append.1 hc with hc | hc
      · exact hcalls c hc
      · rw [List.mem_singleton.1 hc]
        rfl
    obtain ⟨places, first, source, config, hhosts, hcountP⟩ :=
      countP_updates_of_start hbefore hm hcalls' hwhole hlater hpeers
    refine ⟨places, first, source, config, hhosts, fun count hcount i x hi => ?_⟩
    rw [← hcountP i, ← hdirect, List.append_assoc, List.cons_append]
    exact count_of_run hwhole hcount hi

/-- A proposal spreads over a mesh that was started. -/
def spreading : List Command := [.proposeAt 0 ⟨[1]⟩, .time .runNext]

theorem tick_rate_spreading : ∃ answers₀ s₀ answer s, trio.run (wiring ++ .startMesh :: spreading) = .ok (answers₀, s₀) ∧
    s₀.apply (.time (.advance ⟨50 * 10 ^ 6, by decide⟩)) = .ok (answer, s) ∧
      ∃ y, s.world.engines[1]? = some y ∧ y.updates = 6 := by
  obtain ⟨answers₁, s₁, ⟨m, ⟨answers₂, s₀⟩, answer, s⟩, hwiring, hfind⟩ := exists_of_run trio wiring
    (fun s₁ => (s₁.world.mesh.bind fun m => (s₁.run (.startMesh :: spreading)).toOption.bind fun r =>
      (r.2.apply (.time (.advance ⟨50 * 10 ^ 6, by decide⟩))).toOption.map (m, r, ·)).filter fun x =>
        (x.1.peers.all fun p => !x.2.2.2.world.isClosed p && x.2.2.2.world.isAlive p) && x.1.peers.contains 0 &&
          x.1.peers.countP (x.2.2.2.world.leadsTo 1) = 2 && (x.2.2.2.world.peers[0]?).any fun peer =>
            rounds peer.config.tick x.2.2.2.clock s₁.clock = 2) (by decide +kernel)
  obtain ⟨hfound, hcheck⟩ := Option.filter_eq_some_iff.1 hfind
  obtain ⟨m', hm, hfound⟩ := Option.bind_eq_some_iff.1 hfound
  obtain ⟨r, hstart, hfound⟩ := Option.bind_eq_some_iff.1 hfound
  obtain ⟨r', hadvance, heq⟩ := Option.map_eq_some_iff.1 hfound
  cases heq
  simp only [Bool.and_eq_true, List.all_eq_true, Bool.not_eq_true', decide_eq_true_eq] at hcheck
  obtain ⟨⟨⟨hpeers, hzero⟩, hplaces⟩, hrounds⟩ := hcheck
  have hrun := run_append hwiring (toOption_eq_some.1 hstart)
  have hadvance := toOption_eq_some.1 hadvance
  obtain ⟨places, first, source, config, hhosts, hcounts⟩ :=
    (tick_rate hrun hadvance).2.2 wiring spreading answers₁ s₁ m rfl hwiring hm (by decide) hpeers
  obtain ⟨peer, hpeer, hrounds⟩ := (Option.any_eq_true ..).1 hrounds
  have heq := hhosts.hasTick 0 (by simpa using hzero) peer hpeer
  obtain ⟨y, hy, hcount⟩ := hcounts Engine.updates Engine.counts_updates 1 (.gossip (.initial ⟨[2]⟩)) rfl
  refine ⟨_, s₀, answer, s, hrun, hadvance, y, hy, ?_⟩
  rw [hcount, ← hhosts.countP_peers, hplaces, ← heq, of_decide_eq_true hrounds]
  rfl

end Simulation

end VirtualMesh
