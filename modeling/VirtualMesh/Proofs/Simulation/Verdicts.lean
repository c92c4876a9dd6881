import VirtualMesh.Proofs.Simulation.Parallel

/-!
# What engines say

A message counts when it arrives and a peer calls itself again when its time has come, whatever its engine says
to it. So two runs in which engines change alike but accept and refuse differently are the same run, but for
what the engines say.
-/

namespace VirtualMesh

/-- Engines of two kinds change alike, as far as two views of them tell: those that look equal still do after
whatever both are given, and to be told to reject does not show. What they say is left open. -/
structure Consensus.SameChanges {ε ε' κ : Type} [Consensus ε] [Consensus ε'] (view : ε → κ) (view' : ε' → κ) : Prop where
  receive : ∀ {x y}, view x = view' y → ∀ b, view (Consensus.receive x b).1 = view' (Consensus.receive y b).1
  update : ∀ {x y}, view x = view' y → view (Consensus.update x).1 = view' (Consensus.update y).1
  propose : ∀ {x y}, view x = view' y → ∀ alive state,
    (Consensus.propose x alive state).map (fun r => (view r.1, r.2)) =
      (Consensus.propose y alive state).map fun r => (view' r.1, r.2)
  attach : ∀ {x y}, view x = view' y → ∀ links,
    (Consensus.attach? x links).map view = (Consensus.attach? y links).map view'
  reject : ∀ {x x' error}, Consensus.reject? x error = some x' → view x' = view x
  reject' : ∀ {y y' error}, Consensus.reject? y error = some y' → view' y' = view' y

namespace Engine

/-- An engine as it would be had it never been told to reject: everything it has taken down. -/
def record : Engine → Engine
  | .recording e => .recording { e with rejectWith := none }
  | .gossip e => .gossip e

theorem record_receive (x : Engine) (b : Bytes) : record (x.receive b).1 = record (x.record.receive b).1 := by
  cases x <;> rfl

theorem record_update (x : Engine) : record x.update.1 = record x.record.update.1 := by
  cases x <;> rfl

theorem record_propose (x : Engine) (alive : Nat → Bool) (state : State) :
    (x.propose alive state).map (fun r => (r.1.record, r.2)) =
      (x.record.propose alive state).map fun r => (r.1.record, r.2) := by
  cases x <;> rfl

theorem record_attach (x : Engine) (links : List Nat) :
    (Consensus.attach? x links).map record = (Consensus.attach? x.record links).map record := by
  cases x <;> rfl

theorem record_reject {x x' : Engine} {error : ConsensusError} (h : Consensus.reject? x error = some x') :
    x'.record = x.record := by
  cases x with
  | recording e => cases h; rfl
  | gossip e => cases h

theorem sameChanges_record : Consensus.SameChanges record record where
  receive {x y} h b := (record_receive x b).trans (h ▸ (record_receive y b).symm)
  update {x y} h := (record_update x).trans (h ▸ (record_update y).symm)
  propose {x y} h alive state := (record_propose x alive state).trans (h ▸ (record_propose y alive state).symm)
  attach {x y} h links := (record_attach x links).trans (h ▸ (record_attach y links).symm)
  reject := record_reject
  reject' := record_reject

end Engine

def Command.isReject : Command → Bool
  | .reject .. => true
  | _ => false

/-- An answer without what an engine said. -/
def Answer.silent : Answer → Answer
  | .verdict _ => .done
  | a => a

/-- The answers to all commands but those that tell engines to reject, without what engines said. -/
def replies (cs : List Command) (answers : List Answer) : List Answer :=
  ((cs.zip answers).filter fun x => !x.1.isReject).map fun x => x.2.silent

/-- One script, but for commands that tell engines to reject. -/
inductive SameButRejects : List Command → List Command → Prop
  | nil : SameButRejects [] []
  | left {c : Command} {cs cs' : List Command} (hc : c.isReject = true) (h : SameButRejects cs cs') :
      SameButRejects (c :: cs) cs'
  | right {c : Command} {cs cs' : List Command} (hc : c.isReject = true) (h : SameButRejects cs cs') :
      SameButRejects cs (c :: cs')
  | both {c : Command} {cs cs' : List Command} (hc : c.isReject = false) (h : SameButRejects cs cs') :
      SameButRejects (c :: cs) (c :: cs')

theorem sameButRejects_of_filter {cs cs' : List Command}
    (h : cs.filter (fun c => !c.isReject) = cs'.filter fun c => !c.isReject) : SameButRejects cs cs' := by
  induction cs generalizing cs' with
  | nil =>
    induction cs' with
    | nil => exact .nil
    | cons c' cs' ih =>
      cases hc : c'.isReject with
      | true => exact .right hc (ih (by simpa [hc] using h))
      | false => simp [hc] at h
  | cons c cs ih =>
    cases hc : c.isReject with
    | true => exact .left hc (ih (by simpa [hc] using h))
    | false =>
      rw [List.filter_cons_of_pos (by simp [hc])] at h
      induction cs' with
      | nil => simp at h
      | cons c' cs' ih' =>
        cases hc' : c'.isReject with
        | true => exact .right hc' (ih' (by simpa [hc'] using h))
        | false =>
          rw [List.filter_cons_of_pos (by simp [hc'])] at h
          obtain ⟨rfl, htail⟩ := List.cons.inj h
          exact .both hc (ih htail)

variable {ε ε' κ ρ : Type} [Consensus ε] [Consensus ε']

/-- Equal but for what engines say. -/
def Kinship.ofViews (view : ε → κ) (view' : ε' → κ) : Kinship ε ε' where
  shift := 0
  hidden := none
  payload b b' := b' = b
  engine x y := view x = view' y
  verdict _ _ := True
  excused _ := False

theorem Kinship.lawful_ofViews {view : ε → κ} {view' : ε' → κ} (h : Consensus.SameChanges view view') :
    (Kinship.ofViews view view').Lawful where
  payload_refl _ := rfl
  payload_length h := congrArg List.length h
  receive hxy hb := ⟨by rw [show _ = _ from hb]; exact h.receive hxy _, trivial⟩
  update hxy := ⟨h.update hxy, trivial⟩
  propose hxy alive state := (Tally.of_map_eq (h.propose hxy alive state)).imp fun hr => by
    obtain ⟨hengine, houtgoing⟩ := Prod.mk.inj hr
    exact ⟨hengine, houtgoing ▸ List.forall₂_same.2 fun _ _ => ⟨rfl, rfl⟩⟩
  attach hxy links := optionRel_of_map_eq (h.attach hxy links)
  instants hne := absurd rfl hne
  faults := nofun
  receive_left := nofun
  receive_right := nofun
  update_left := nofun
  update_right := nofun

omit [Consensus ε] [Consensus ε'] in
theorem Answer.Alike.silent_eq {view : ε → κ} {view' : ε' → κ} {a a' : Answer} (h : a.Alike (.ofViews view view') a') :
    a.silent = a'.silent := by
  cases h with
  | same => rfl
  | verdict => rfl
  | secret h => cases h

namespace Simulation

variable [NormalSource ρ] {view : ε → κ} {view' : ε' → κ} {s : Simulation ε ρ} {s' : Simulation ε' ρ}

omit [Consensus ε'] in
theorem apply_reject_cases (s : Simulation ε ρ) {c : Command} (hc : c.isReject = true) :
    s.apply c = .error .absent ∨ ∃ i x x' error, s.world.engines[i]? = some x ∧ Consensus.reject? x error = some x' ∧
      s.apply c = .ok (.done, s.withWorld (s.world.setEngine i x')) := by
  cases c with
  | reject i error =>
    cases hx : s.world.engines[i]? with
    | none => exact .inl (by simp [apply, hx, require, bind, Except.bind])
    | some x =>
      cases hx' : Consensus.reject? x error with
      | none => exact .inl (by simp [apply, hx, hx', require, bind, Except.bind])
      | some x' =>
        exact .inr ⟨i, x, x', error, hx, hx', by simp [apply, hx, hx', require, bind, Except.bind, pure, Except.pure]⟩
  | _ => cases hc

theorem replies_cons_reject {c : Command} (hc : c.isReject = true) (cs : List Command) (answer : Answer)
    (answers : List Answer) : replies (c :: cs) (answer :: answers) = replies cs answers := by
  simp [replies, hc]

theorem replies_cons {c : Command} (hc : c.isReject = false) (cs : List Command) (answer : Answer)
    (answers : List Answer) : replies (c :: cs) (answer :: answers) = answer.silent :: replies cs answers := by
  simp [replies, hc]

/-- What an engine that is told to reject takes down goes on as before. -/
theorem Alike.run (h : Alike (.ofViews view view') s s') (hsame : Consensus.SameChanges view view') {cs cs' : List Command}
    (hscript : SameButRejects cs cs') : Tally (fun r => r = .absent)
      (fun r r' => replies cs r.1 = replies cs' r'.1 ∧ Alike (.ofViews view view') r.2 r'.2) (s.run cs) (s'.run cs') := by
  induction hscript generalizing s s' with
  | nil => exact .ok ⟨rfl, h⟩
  | @left c cs cs' hc _ ih =>
    rw [run_cons]
    rcases s.apply_reject_cases hc with happly | ⟨i, x, x', error, hx, hx', happly⟩
    · rw [happly]
      exact .left rfl
    · rw [happly]
      have h₁ := h.withWorld (h.world.setEngine_left hx fun hxy => (hsame.reject hx').trans hxy)
      refine (ih h₁).map_left fun hr => ?_
      rw [replies_cons_reject hc]
      exact hr
  | @right c cs cs' hc _ ih =>
    rw [run_cons]
    rcases s'.apply_reject_cases hc with happly | ⟨i, y, y', error, hy, hy', happly⟩
    · rw [happly]
      exact .right rfl
    · rw [happly]
      have h₁ := h.withWorld (h.world.setEngine_right hy fun hxy => hxy.trans (hsame.reject' hy').symm)
      refine (ih h₁).map_right fun hr => ?_
      rw [replies_cons_reject hc]
      exact hr
  | @both c cs cs' hc _ ih =>
    rw [run_cons, run_cons]
    have hreject : ∀ i error, c ≠ .reject i error := by rintro i error rfl; cases hc
    have happly := h.apply rfl (Kinship.lawful_ofViews hsame) (.refl c) (fun i error heq => absurd heq (hreject i error))
      (fun hne => absurd rfl hne) fun hne => absurd rfl hne
    refine (happly.excuse ?_).bind fun hr => (ih hr.2).map fun hr' => ⟨?_, hr'.2⟩
    · rintro (_ | f) hf
      · cases hf
      · cases hf
    · rw [replies_cons hc, replies_cons hc, hr'.1, hr.1.silent_eq]

omit [Consensus ε] [Consensus ε'] [NormalSource ρ] in
/-- What does not differ but for engines is equal. -/
theorem Alike.eq_of_views (h : Alike (.ofViews view view') s s') : s'.clock = s.clock ∧ s'.queue = s.queue ∧
    s'.journal = s.journal ∧ s'.world = { s.world with engines := s'.world.engines } ∧
      s.world.engines.map view = s'.world.engines.map view' := by
  have htotal := (Kinship.ofViews view view').total_of_hidden_eq_none rfl
  have htask : ∀ {t u : Task}, t.Alike (Kinship.ofViews view view') u → u = t := by
    rintro t u (hpayload | _)
    · rw [show _ = _ from hpayload]
    · rfl
  refine ⟨h.clock.eq, eq_of_forall₂ (fun he => he.eq rfl htotal htask) (h.queue htotal),
    eq_of_forall₂ (fun hx => hx.eq rfl htotal htask) (h.journal htotal), h.world.eq_with_engines rfl,
    forall₂_iff_map_eq.1 h.world.engines⟩

/-- Two runs of one script, over engines that change alike but may accept and refuse differently, are the same run:
the same clock, queue, history and peers, and engines that look the same; or both stop with the same fault. -/
theorem engine_errors_unseen (hsame : Consensus.SameChanges view view') {clock : Instant} {engines : List ε}
    {engines' : List ε'} (hengines : engines.map view = engines'.map view') {cs cs' : List Command}
    (hscript : cs.filter (fun c => !c.isReject) = cs'.filter fun c => !c.isReject)
    (hnamed : (start clock engines : Simulation ε ρ).run cs ≠ .error .absent)
    (hnamed' : (start clock engines' : Simulation ε' ρ).run cs' ≠ .error .absent) :
    (∃ answers s answers' s', (start clock engines : Simulation ε ρ).run cs = .ok (answers, s) ∧
      (start clock engines' : Simulation ε' ρ).run cs' = .ok (answers', s') ∧
        replies cs answers = replies cs' answers' ∧ s'.clock = s.clock ∧ s'.queue = s.queue ∧ s'.journal = s.journal ∧
          s'.world = { s.world with engines := s'.world.engines } ∧
            s.world.engines.map view = s'.world.engines.map view') ∨
      ∃ f, (start clock engines : Simulation ε ρ).run cs = .error (.fault f) ∧
        (start clock engines' : Simulation ε' ρ).run cs' = .error (.fault f) := by
  have hstart : Alike (.ofViews view view') (start clock engines : Simulation ε ρ) (start clock engines') :=
    .start (.refl clock) (forall₂_iff_map_eq.2 hengines)
  have hrun := hstart.run hsame (sameButRejects_of_filter hscript)
  rcases hrun.elim (fun r hr habsent => hnamed (habsent ▸ hr)) (fun r hr habsent => hnamed' (habsent ▸ hr)) with
    ⟨⟨answers, s⟩, ⟨answers', s'⟩, hs, hs', hreplies, halike⟩ | ⟨r, hr, hr'⟩
  · exact .inl ⟨answers, s, answers', s', hs, hs', hreplies, halike.eq_of_views⟩
  · cases r with
    | absent => exact absurd hr hnamed
    | fault f => exact .inr ⟨f, hr, hr'⟩

/-- A peer that is updated and sent through; its engine is told to reject before any of it arrives. -/
def refusing : List Command :=
  [.newPeer 0 jittery none, .send 0 [1, 2], .reject 0 .messageIsEmpty, .update 0, .time (.runAll 2), .updateAt 0]

def accepting : List Command := refusing.filter fun c => !c.isReject

theorem engine_errors_unseen_refusing : ∃ answers s answers' s', soloRecorder.run refusing = .ok (answers, s) ∧
    soloRecorder.run accepting = .ok (answers', s') ∧ replies refusing answers = replies accepting answers' ∧
      s'.journal = s.journal ∧ s'.world.peers = s.world.peers ∧
        s.world.engines.map Engine.record = s'.world.engines.map Engine.record ∧
          s.world.engines.map (fun x => x.update.2.isSome) = [true] ∧
            s'.world.engines.map (fun x => x.update.2.isSome) = [false] := by
  obtain ⟨answers, s, ⟨answers', s'⟩, hrun, hfind⟩ := exists_of_run soloRecorder refusing
    (fun s => (soloRecorder.run accepting).toOption.filter fun r =>
      s.world.engines.map (fun x => x.update.2.isSome) = [true] &&
        r.2.world.engines.map (fun x => x.update.2.isSome) = [false]) (by decide +kernel)
  obtain ⟨hrun', hcheck⟩ := Option.filter_eq_some_iff.1 hfind
  simp only [Bool.and_eq_true, decide_eq_true_eq] at hcheck
  have hrun' := toOption_eq_some.1 hrun'
  have hnamed : soloRecorder.run refusing ≠ .error .absent := by rw [hrun]; exact nofun
  have hnamed' : soloRecorder.run accepting ≠ .error .absent := by rw [hrun']; exact nofun
  rcases engine_errors_unseen Engine.sameChanges_record rfl (by simp [accepting]) hnamed hnamed' with
    ⟨answers₁, s₁, answers₂, s₂, hs₁, hs₂, hreplies, -, -, hjournal, hworld, hengines⟩ | ⟨f, herror, -⟩
  · cases hrun.symm.trans hs₁
    cases hrun'.symm.trans hs₂
    exact ⟨answers, s, answers', s', hrun, hrun', hreplies, hjournal, by rw [hworld], hengines, hcheck⟩
  · exact nomatch hrun.symm.trans herror

end Simulation

end VirtualMesh
