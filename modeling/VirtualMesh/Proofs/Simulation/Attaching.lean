import VirtualMesh.Proofs.Simulation.Convergence
import VirtualMesh.Proofs.Turns

/-!
# Links of gossip engines

A gossip engine strikes the links that have ended off its list, but only when it proposes. This does not show: an engine
that never does floods the same links and counts as many. In a simulation the live links of an engine are those that it
owns, so that a proposal goes out once through each of them, in the order in which they were attached.
-/

namespace VirtualMesh

open GossipEngine (propose encode)

/-- A proposal that leaves the list of links as it is. -/
def GossipEngine.proposeKeeping : Proposer := fun e alive s =>
  (e.propose alive s).map fun r => ({ r.1 with links := e.links }, r.2)

namespace GossipEngine

theorem receive_with_links (e : GossipEngine) (ls : List Nat) (m : Bytes) :
    { e with links := ls }.receive m = ({ (e.receive m).1 with links := ls }, (e.receive m).2) := by
  unfold receive
  cases adopt e.decided m <;> rfl

end GossipEngine

namespace Hosted

/-- What each turn sends, with the number of attached links after it. -/
def observed (propose : Proposer) : Hosted → List Turn → List (Except Fault (List Outgoing) × Nat)
  | _, [] => []
  | x, t :: ts => ((x.turn propose t).1, (x.turn propose t).2.attached) :: observed propose (x.turn propose t).2 ts

/-- The links attached at first or later, less all those that end. -/
def remaining (x : Hosted) (ts : List Turn) : List Nat :=
  (x.engine.links ++ entries ts).filter fun l => l ∉ x.gone ++ dropped ts

theorem live_eq_remaining (x : Hosted) (ts : List Turn) : (x.after propose ts).live = x.remaining ts := by
  rw [live_after, remaining, ← gone_after]
  rfl

/-- The same with another list of links. -/
def withLinks (x : Hosted) (ls : List Nat) : Hosted := { x with engine := { x.engine with links := ls } }

section
variable {x : Hosted} {ls : List Nat}

theorem filter_append_links (hls : ls.filter x.alive = x.live) (t : Turn) :
    (ls ++ t.links).filter (x.turn propose t).2.alive = (x.turn propose t).2.live := by
  rw [live_turn, List.filter_append, List.filter_append, ← filter_alive_turn x t ls, hls, live, filter_alive_turn]

/-- An engine that keeps ended links does the same as one that does not, as long as the live ones are the same. -/
theorem turn_withLinks (hls : ls.filter x.alive = x.live) (t : Turn) :
    (x.withLinks ls).turn GossipEngine.proposeKeeping t =
      ((x.turn propose t).1, (x.turn propose t).2.withLinks (ls ++ t.links)) := by
  cases t with
  | receive m =>
    change (_, Hosted.mk ({ x.engine with links := ls }.receive m).1 x.gone) = (_, withLinks _ (ls ++ []))
    rw [GossipEngine.receive_with_links, List.append_nil]
    rfl
  | update | drop =>
    change _ = (_, withLinks _ (ls ++ []))
    rw [List.append_nil]
    rfl
  | propose s =>
    change _ = (_, withLinks _ (ls ++ []))
    rw [List.append_nil]
    have halive : (x.withLinks ls).alive = x.alive := rfl
    cases hnext : x.engine.decided.height.next with
    | error f =>
      simp only [turn, GossipEngine.proposeKeeping, propose, withLinks, hnext]
      rfl
    | ok h =>
      have hkeeping : GossipEngine.proposeKeeping (x.withLinks ls).engine x.alive s =
          .ok ({ x.engine with decided := ⟨h, .zero, s⟩, links := ls }, x.live.map fun l => ⟨l, encode h s⟩) := by
        simp only [GossipEngine.proposeKeeping, propose, withLinks, hnext, hls]
        rfl
      simp only [turn, halive, hkeeping, GossipEngine.propose_eq_ok.2 ⟨h, hnext, rfl, rfl⟩]
      rfl
  | attach ls' => rfl

theorem observed_withLinks (hls : ls.filter x.alive = x.live) (ts : List Turn) :
    (x.withLinks ls).observed GossipEngine.proposeKeeping ts = x.observed propose ts := by
  induction ts generalizing x ls with
  | nil => rfl
  | cons t ts ih =>
    have hlater := filter_append_links hls t
    rw [observed, observed, turn_withLinks hls, ih hlater, attached_eq_length, attached_eq_length]
    congr 2
    exact congrArg List.length hlater

end

end Hosted

/-! ## In a simulation -/

theorem filter_of_sublist {ls ms : List Link} (h : ls.Sublist ms)
    (hnumbered : ms.Pairwise fun l m => l.number < m.number) :
    ms.filter (fun m => ls.any fun l => l.number = m.number) = ls := by
  induction h with
  | slnil => rfl
  | @cons ls ms m h ih =>
    obtain ⟨hm, hms⟩ := List.pairwise_cons.1 hnumbered
    have hnone : ¬ (ls.any fun l => l.number = m.number) = true := by
      rw [List.any_eq_true]
      rintro ⟨l, hl, heq⟩
      have hlt := hm l (h.subset hl)
      have heq := of_decide_eq_true heq
      omega
    refine Eq.trans (List.filter_cons_of_neg ?_) (ih hms)
    exact hnone
  | @cons_cons ls ms m h ih =>
    obtain ⟨hm, hms⟩ := List.pairwise_cons.1 hnumbered
    have hsame : ∀ k ∈ ms, ((m :: ls).any fun l => l.number = k.number) = ls.any fun l => l.number = k.number := by
      intro k hk
      rw [List.any_cons, decide_eq_false (Nat.ne_of_lt (hm k hk)), Bool.false_or]
    rw [List.filter_cons_of_pos (by simp), List.filter_congr hsame, ih hms]

variable {ρ : Type}

namespace World

/-- The links that belong to an engine, in the order in which they were attached. -/
def linksOf {ε : Type} (w : World ε ρ) (i : Nat) : List Link := w.links.filter fun l => l.owner = i

def newLinks {ε : Type} (w : World ε ρ) (owner : Nat) (peers : List Nat) : List Link :=
  (peers.zipIdx w.linked).map fun x => ⟨x.2, owner, x.1⟩

theorem link_eq {ε : Type} (w : World ε ρ) (owner : Nat) (peers : List Nat) : w.link owner peers =
    ((w.newLinks owner peers).map Link.number,
      { w with links := w.links ++ w.newLinks owner peers, linked := w.linked + peers.length }) := rfl

/-- The links on the lists of gossip engines are numbered, and those that are left are all links of their engines. -/
structure Hooked (w : World Engine ρ) : Prop where
  numbered : ∀ (i : Nat) (e : GossipEngine), w.engines[i]? = some (Engine.gossip e) → ∀ n ∈ e.links, n < w.linked
  live : ∀ (i : Nat) (e : GossipEngine), w.engines[i]? = some (Engine.gossip e) →
    e.links.filter w.hasLink = (w.linksOf i).map Link.number

namespace Hooked

variable {w : World Engine ρ}

theorem setEngine (h : w.Hooked) {i : Nat} {x y : Engine} (hx : w.engines[i]? = some x)
    (hlinks : ∀ e', y = Engine.gossip e' → ∃ e : GossipEngine, x = Engine.gossip e ∧
      (e'.links = e.links ∨ e'.links = e.links.filter w.hasLink)) :
    (w.setEngine i y).Hooked := by
  have hsplit : ∀ (j : Nat) (e' : GossipEngine), (w.setEngine i y).engines[j]? = some (Engine.gossip e') →
      ∃ e : GossipEngine, w.engines[j]? = some (Engine.gossip e) ∧
        (e'.links = e.links ∨ e'.links = e.links.filter w.hasLink) := by
    intro j e' hj
    by_cases hij : i = j
    · subst hij
      rw [World.setEngine, List.getElem?_set_self (List.getElem?_eq_some_iff.1 hx).1] at hj
      obtain ⟨e, rfl, he⟩ := hlinks e' (Option.some.inj hj)
      exact ⟨e, hx, he⟩
    · rw [World.setEngine, List.getElem?_set_ne hij] at hj
      exact ⟨e', hj, .inl rfl⟩
  constructor
  case numbered =>
    intro j e' hj n hn
    obtain ⟨e, he, hsame | hpruned⟩ := hsplit j e' hj
    · exact h.numbered j e he n (hsame ▸ hn)
    · exact h.numbered j e he n (List.mem_of_mem_filter (hpruned ▸ hn))
  case live =>
    intro j e' hj
    obtain ⟨e, he, hsame | hpruned⟩ := hsplit j e' hj
    · rw [hsame]
      exact h.live j e he
    · rw [hpruned]
      exact (List.filter_eq_self.2 fun n hn => (List.mem_filter.1 hn).2).trans (h.live j e he)

theorem unlink (h : w.Hooked) (hnumbered : w.links.Pairwise fun l m => l.number < m.number) {links : List Link}
    (hlinks : links.Sublist w.links) : { w with links }.Hooked where
  numbered := h.numbered
  live i e hi := by
    have hleft : ∀ n, ({ w with links } : World Engine ρ).hasLink n = true → w.hasLink n = true := by
      intro n hn
      obtain ⟨l, hl, hnumber⟩ := List.any_eq_true.1 hn
      exact List.any_eq_true.2 ⟨l, hlinks.subset hl, hnumber⟩
    calc e.links.filter ({ w with links } : World Engine ρ).hasLink
        = (e.links.filter w.hasLink).filter ({ w with links } : World Engine ρ).hasLink := by
          rw [List.filter_filter]
          exact List.filter_congr fun n _ => (Bool.and_eq_left_iff_imp.2 (hleft n)).symm
      _ = ((w.links.filter fun m => links.any fun l => l.number = m.number).filter fun l => l.owner = i).map
            Link.number := by
          rw [h.live i e hi, linksOf, List.filter_map, List.filter_filter, List.filter_filter]
          refine congrArg _ (List.filter_congr fun l _ => Bool.and_comm ..)
      _ = _ := by rw [filter_of_sublist hlinks hnumbered]; rfl

/-- New links have numbers above all that were given out, so that no link on a list comes back. -/
theorem attach (h : w.Hooked) {i : Nat} {peers : List Nat} {x y : Engine} (hx : w.engines[i]? = some x)
    (hy : Consensus.attach? x (w.link i peers).1 = some y) : ((w.link i peers).2.setEngine i y).Hooked := by
  obtain ⟨e, rfl, rfl⟩ : ∃ e, x = .gossip e ∧ y = .gossip (e.attach (w.link i peers).1) := by
    cases x with
    | recording e => cases hy
    | gossip e => exact ⟨e, rfl, (Option.some.inj hy).symm⟩
  rw [link_eq]
  have hnew : ∀ l ∈ w.newLinks i peers, w.linked ≤ l.number ∧ l.number < w.linked + peers.length ∧ l.owner = i := by
    intro l hl
    obtain ⟨z, hz, rfl⟩ := List.mem_map.1 hl
    exact ⟨List.le_snd_of_mem_zipIdx hz, List.snd_lt_add_of_mem_zipIdx hz, rfl⟩
  generalize w.newLinks i peers = new at hnew
  have hold : ∀ n, n < w.linked → ((w.links ++ new).any fun l => l.number = n) = w.hasLink n := by
    intro n hn
    have hnone : (new.any fun l => decide (l.number = n)) = false := by
      rw [List.any_eq_false]
      intro l hl heq
      have hle := (hnew l hl).1
      have heq := of_decide_eq_true heq
      omega
    rw [List.any_append, hnone, Bool.or_false]
    rfl
  have hsplit : ∀ (j : Nat) (e' : GossipEngine),
      (w.engines.set i (.gossip (e.attach (new.map Link.number))))[j]? = some (Engine.gossip e') →
        ∃ e₀ : GossipEngine, w.engines[j]? = some (Engine.gossip e₀) ∧
          e'.links = e₀.links ++ (new.filter fun l => l.owner = j).map Link.number := by
    intro j e' hj
    by_cases hij : i = j
    · subst hij
      rw [List.getElem?_set_self (List.getElem?_eq_some_iff.1 hx).1] at hj
      cases hj
      rw [List.filter_eq_self.2 fun l hl => decide_eq_true (hnew l hl).2.2]
      exact ⟨e, hx, rfl⟩
    · rw [List.getElem?_set_ne hij] at hj
      rw [List.filter_eq_nil_iff.2 fun l hl => by rw [(hnew l hl).2.2]; simpa using hij]
      exact ⟨e', hj, (List.append_nil _).symm⟩
  constructor
  case numbered =>
    intro j e' hj n hn
    obtain ⟨e₀, he₀, hlinks⟩ := hsplit j e' hj
    rcases List.mem_append.1 (hlinks ▸ hn) with hn | hn
    · exact Nat.lt_of_lt_of_le (h.numbered j e₀ he₀ n hn) (Nat.le_add_right _ _)
    · obtain ⟨l, hl, rfl⟩ := List.mem_map.1 hn
      exact (hnew l (List.mem_of_mem_filter hl)).2.1
  case live =>
    intro j e' hj
    obtain ⟨e₀, he₀, hlinks⟩ := hsplit j e' hj
    change e'.links.filter (fun n => (w.links ++ new).any fun l => l.number = n) =
      ((w.links ++ new).filter fun l => l.owner = j).map Link.number
    rw [hlinks, List.filter_append, List.filter_congr fun n hn => hold n (h.numbered j e₀ he₀ n hn), h.live j e₀ he₀,
      List.filter_append, List.map_append]
    congr 1
    refine List.filter_eq_self.2 fun n hn => ?_
    obtain ⟨l, hl, rfl⟩ := List.mem_map.1 hn
    exact List.any_eq_true.2 ⟨l, List.mem_append_right _ (List.mem_of_mem_filter hl), decide_eq_true rfl⟩

end Hooked

end World

namespace Simulation

variable [NormalSource ρ] {s s' : Simulation Engine ρ} {a : Action} {as : List Action}

theorem Step.hooked (hs : s.Sound) (h : s.world.Hooked) (hstep : Step s a s') : s'.world.Hooked := by
  have hreceive : ∀ (x : Engine) (m : Bytes) (e' : GossipEngine), (Consensus.receive x m).1 = .gossip e' →
      ∃ e : GossipEngine, x = .gossip e ∧ (e'.links = e.links ∨ e'.links = e.links.filter s.world.hasLink) := by
    rintro (e | e) m e' heq
    · cases heq
    · cases heq
      exact ⟨e, rfl, .inl (e.links_receive m)⟩
  have hupdate : ∀ (x : Engine) (e' : GossipEngine), (Consensus.update x).1 = .gossip e' →
      ∃ e : GossipEngine, x = .gossip e ∧ (e'.links = e.links ∨ e'.links = e.links.filter s.world.hasLink) := by
    rintro (e | e) e' heq
    · cases heq
    · cases heq
      exact ⟨e, rfl, .inl rfl⟩
  cases hstep with
  | @deliver e rest p payload delay peer stats x hq ht hp hd hstats hx =>
    have hmoved : (s.world.setPeer p { peer with stats, inFlight := peer.inFlight - 1 }).Hooked := ⟨h.numbered, h.live⟩
    exact hmoved.setEngine hx (hreceive x payload)
  | tick hq ht halive hp hopen hx =>
    rw [Machine.world_putAll]
    exact h.setEngine hx (hupdate _)
  | update hp hopen hx =>
    rw [Machine.world_putAll]
    exact h.setEngine hx (hupdate _)
  | receive hx => exact h.setEngine hx (hreceive _ _)
  | updateEngine hx => exact h.setEngine hx (hupdate _)
  | @propose i state x y outgoing hx hy =>
    refine h.setEngine hx fun e' heq => ?_
    subst heq
    cases x with
    | recording e => cases hy
    | gossip e =>
      obtain ⟨height, -, hsame, -⟩ := Engine.propose_gossip_eq_ok.1 hy
      cases hsame
      exact ⟨e, rfl, .inr rfl⟩
  | @reject i error x y hx hy =>
    refine h.setEngine hx fun e' heq => ?_
    subst heq
    cases x <;> cases hy
  | attach hpeers hx hy => exact h.attach hx hy
  | unlink hlinks => exact h.unlink hs.world.numbered hlinks
  | _ => exact ⟨h.numbered, h.live⟩

theorem Trace.hooked (htrace : Trace s as s') (hs : s.Sound) (h : s.world.Hooked) : s'.world.Hooked :=
  (htrace.induct (P := fun s => s.Sound ∧ s.world.Hooked) (A := fun _ => True)
    (fun _ h hstep => ⟨hstep.sound h.1, hstep.hooked h.1 h.2⟩) (fun _ _ => trivial) ⟨hs, h⟩).2

theorem hooked_of_run {clock : Instant} {engines : List Engine} {commands : List Command} {answers : List Answer}
    (hfree : ∀ e : GossipEngine, Engine.gossip e ∈ engines → e.links = [])
    (hrun : (start clock engines).run commands = .ok (answers, s)) : s.world.Hooked := by
  obtain ⟨as, htrace, -, -⟩ := run_trace (.start clock engines) hrun
  refine htrace.hooked (.start clock engines) ⟨fun i e hi n hn => ?_, fun i e hi => ?_⟩
  · rw [hfree e (List.mem_of_getElem? hi)] at hn
    cases hn
  · rw [hfree e (List.mem_of_getElem? hi)]
    rfl

omit [NormalSource ρ] in
/-- A flood goes out once through each link of its engine. -/
theorem flood_eq_map (hs : s.Sound) (h : s.world.Hooked) {i : Nat} {e : GossipEngine} {state : State} {height : Height}
    (hi : s.gossipAt i = some e) (hnext : e.decided.height.next = .ok height) :
    s.flood i state = (s.world.linksOf i).map fun l => (l.peer, encode height state) := by
  rw [flood_eq hi hnext, h.live i e (gossipAt_eq_some.1 hi), List.filterMap_map, ← List.filterMap_eq_map]
  refine List.filterMap_congr fun l hl => ?_
  have hpeer := hs.world.peerOfLink_eq (List.mem_of_mem_filter hl)
  simp only [Function.comp_apply, hpeer, Option.map_some]

theorem sent_propose (hs : s.Sound) (h : s.world.Hooked) {i : Nat} {e : GossipEngine} {state : State}
    (hi : s.gossipAt i = some e) (hpropose : s.propose i state = .ok s') :
    ∃ height, e.decided.height.next = .ok height ∧ s'.sent.map (fun x => (x.peer, x.payload)) =
      s.sent.map (fun x => (x.peer, x.payload)) ++ (s.world.linksOf i).map fun l => (l.peer, encode height state) := by
  have htrace := propose_trace hs (lt_of_gossipAt hi) hpropose
  obtain ⟨height, hnext⟩ : ∃ height, e.decided.height.next = .ok height := by
    cases htrace with
    | cons hstep _ => exact hstep.exists_next hi
  have hsent := htrace.map_sent
  rw [List.filterMap_cons_none rfl, sent?_send, flood_eq_map hs h hi hnext] at hsent
  exact ⟨height, hnext, hsent⟩

end Simulation

namespace Hosted

/-- After any turns a proposal sends its message on each link that was attached and has not ended, as often and in the
order in which it was attached, and on no other; these are the links that count as attached. An engine that keeps the
links that have ended sends the same and counts the same in every turn. Without messages it takes all heights there are
for a proposal to fault. In a simulation the links are those that belong to the engine, and what is sent on them goes to
their peers. -/
theorem floods_live_links (x : Hosted) (ts : List Turn) :
    (∀ s, ((x.after propose ts).engine.propose (x.after propose ts).alive s).map Prod.snd =
      (x.after propose ts).engine.decided.height.next.map fun h => (x.remaining ts).map fun l => ⟨l, encode h s⟩) ∧
    (x.after propose ts).attached = (x.remaining ts).length ∧
    x.observed GossipEngine.proposeKeeping ts = x.observed propose ts ∧
    (received ts = [] → x.engine.height + countProposals ts + 1 < 2 ^ 64 →
      ∀ s, ∃ r, (x.after propose ts).engine.propose (x.after propose ts).alive s = .ok r) ∧
    ∀ (ρ : Type) [NormalSource ρ] (clock : Instant) (engines : List Engine) (commands : List Command)
      (answers : List Answer) (s : Simulation Engine ρ),
      (∀ e : GossipEngine, Engine.gossip e ∈ engines → e.links = []) →
      (Simulation.start clock engines).run commands = .ok (answers, s) → ∀ i e, s.gossipAt i = some e →
        e.attached s.world.hasLink = (s.world.linksOf i).length ∧
        ∀ state s', s.propose i state = .ok s' → ∃ height, e.decided.height.next = .ok height ∧
          s'.sent.map (fun y => (y.peer, y.payload)) = s.sent.map (fun y => (y.peer, y.payload)) ++
            (s.world.linksOf i).map fun l => (l.peer, encode height state) := by
  refine ⟨fun s => ?_, ?_, observed_withLinks rfl ts, fun hnone hheight s => ?_, ?_⟩
  · rw [propose, ← live_eq_remaining, live]
    cases (x.after propose ts).engine.decided.height.next <;> rfl
  · rw [attached_eq_length, live_eq_remaining]
  · have hle := height_after_le x ts
    rw [hnone] at hle
    obtain ⟨e, sent, hpropose, -⟩ := (proposes_iff (x := x.after propose ts) (s := s)).2
      (Nat.lt_of_le_of_lt (Nat.add_le_add_right hle 1) hheight)
    exact ⟨_, hpropose⟩
  · intro ρ _ clock engines commands answers s hfree hrun i e hi
    have hs := Simulation.sound_of_run hrun
    have hhooked := Simulation.hooked_of_run hfree hrun
    refine ⟨?_, fun state s' hpropose => Simulation.sent_propose hs hhooked hi hpropose⟩
    rw [GossipEngine.attached, List.countP_eq_length_filter, hhooked.live i e (Simulation.gossipAt_eq_some.1 hi),
      List.length_map]

/-- Three links, one of them attached twice; one ends before a proposal, and one after it. -/
def lapsing : List Turn := [.attach [4, 7], .drop 7, .propose ⟨[1]⟩, .attach [4, 9], .drop 9]

theorem floods_live_links_lapsing :
    (∃ e h, ((fresh ⟨[]⟩).after propose lapsing).engine.propose ((fresh ⟨[]⟩).after propose lapsing).alive ⟨[2]⟩ =
      .ok (e, [⟨4, encode h ⟨[2]⟩⟩, ⟨4, encode h ⟨[2]⟩⟩])) ∧
    ((fresh ⟨[]⟩).observed GossipEngine.proposeKeeping lapsing).map Prod.snd = [2, 1, 1, 3, 2] ∧
    ∃ answers s s', Simulation.trio.run (Simulation.wiring ++ [.attach 0 [0], .unlink 0 (some 1)]) = .ok (answers, s) ∧
      s.propose 0 ⟨[3]⟩ = .ok s' ∧ s'.sent.map (fun y => y.peer) = [1, 0] := by
  obtain ⟨hsent, -, hkeeping, hok, hsimulation⟩ := floods_live_links (fresh ⟨[]⟩) lapsing
  refine ⟨?_, ?_, ?_⟩
  · obtain ⟨⟨e, sent⟩, hpropose⟩ := hok rfl (by decide) ⟨[2]⟩
    have hflood := hsent ⟨[2]⟩
    rw [hpropose] at hflood
    cases hnext : ((fresh ⟨[]⟩).after propose lapsing).engine.decided.height.next with
    | error f =>
      rw [hnext] at hflood
      cases hflood
    | ok h =>
      rw [hnext] at hflood
      obtain rfl : sent = [⟨4, encode h ⟨[2]⟩⟩, ⟨4, encode h ⟨[2]⟩⟩] := Except.ok.inj hflood
      exact ⟨e, h, hpropose⟩
  · rw [hkeeping]
    decide
  · obtain ⟨answers, s, ⟨e, s'⟩, hrun, hfind⟩ := Simulation.exists_of_run Simulation.trio
      (Simulation.wiring ++ [.attach 0 [0], .unlink 0 (some 1)])
      (fun s => ((s.gossipAt 0).bind fun e => (s.propose 0 ⟨[3]⟩).toOption.map (e, ·)).filter fun _ =>
        (s.sent.map fun y => y.peer) = [] && (s.world.linksOf 0).map Link.peer = [1, 0]) (by decide +kernel)
    obtain ⟨hfound, hcheck⟩ := Option.filter_eq_some_iff.1 hfind
    obtain ⟨e', hi, hfound⟩ := Option.bind_eq_some_iff.1 hfound
    obtain ⟨s'', hpropose, heq⟩ := Option.map_eq_some_iff.1 hfound
    cases heq
    have hpropose := Simulation.toOption_eq_some.1 hpropose
    simp only [Bool.and_eq_true, decide_eq_true_eq] at hcheck
    obtain ⟨hnone, hlinks⟩ := hcheck
    have hfree : ∀ e : GossipEngine, Engine.gossip e ∈
        ([⟨[1]⟩, ⟨[2]⟩, ⟨[3]⟩] : List PublicKey).map (fun k => .gossip (.initial k)) → e.links = [] := by
      intro e he
      obtain ⟨k, -, heq⟩ := List.mem_map.1 he
      cases heq
      rfl
    obtain ⟨height, -, hmap⟩ := (hsimulation _ default _ _ answers s hfree hrun 0 e hi).2 ⟨[3]⟩ s' hpropose
    have hpeers := congrArg (List.map Prod.fst) hmap
    rw [List.map_append, List.map_map, List.map_map, List.map_map] at hpeers
    refine ⟨answers, s, s', hrun, hpropose, hpeers.trans ?_⟩
    calc _ = (s.sent.map fun y => y.peer) ++ (s.world.linksOf 0).map Link.peer := rfl
      _ = [1, 0] := by rw [hnone, hlinks]; rfl

end Hosted

end VirtualMesh
