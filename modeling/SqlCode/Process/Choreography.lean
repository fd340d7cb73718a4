import SqlCode.Process.Network
import Mathlib.Data.List.Infix

/-!
# Choreographies

A choreography lists the messages a system is meant to exchange, in an order in
which they could pass one at a time. Its projection to a rank (`project`) is
what that rank is meant to send and to receive. A rank `Follows` it if each of
its actions is the next event of its projection or a computation between two of
them; which local states go with which events ahead is the parameter `At`, so
this is a condition on one rank at a time.

Two facts about all interleavings come out of these local conditions.

* `Reachable.onTrack`: what a rank receives is what the choreography says,
  because of the **balance** of every channel: the messages in flight, followed
  by those still to be sent, are those still to be received.
* `OnTrack.progress`: no deadlock, even if every send blocks. The induction is on
  the choreography (`exists_enabled`): the first message that has not passed yet
  can pass.
-/

namespace Process

open Exec

variable {σ τ μ : Type} [DecidableEq τ]

/-- One message of a choreography. -/
structure Comm (τ μ : Type) where
  /-- The sender. -/
  src : ℕ
  /-- The receiver. -/
  dst : ℕ
  /-- The tag. -/
  tag : τ
  /-- The contents. -/
  msg : μ
  /-- No rank sends to itself. -/
  ne : src ≠ dst

/-- A rank's side of a message. -/
inductive Event (τ μ : Type)
  /-- Sending `m` to `dst`. -/
  | send (dst : ℕ) (tag : τ) (m : μ)
  /-- Receiving `m` from `src`. -/
  | recv (src : ℕ) (tag : τ) (m : μ)

/-- The side of a message that rank `r` sees, if any. -/
def Comm.event (r : ℕ) (g : Comm τ μ) : Option (Event τ μ) :=
  if r = g.src then some (.send g.dst g.tag g.msg)
  else if r = g.dst then some (.recv g.src g.tag g.msg)
  else none

/-- The part of a choreography that rank `r` takes. -/
def project (r : ℕ) (G : List (Comm τ μ)) : List (Event τ μ) :=
  G.filterMap (Comm.event r)

/-- The messages that a list of events sends to `dst` under `tag`. -/
def sends (dst : ℕ) (tag : τ) : List (Event τ μ) → List μ
  | [] => []
  | .send d t m :: l => if d = dst ∧ t = tag then m :: sends dst tag l else sends dst tag l
  | .recv _ _ _ :: l => sends dst tag l

/-- The messages that a list of events receives from `src` under `tag`. -/
def recvs (src : ℕ) (tag : τ) : List (Event τ μ) → List μ
  | [] => []
  | .send _ _ _ :: l => recvs src tag l
  | .recv s t m :: l => if s = src ∧ t = tag then m :: recvs src tag l else recvs src tag l

/-! ### Projections -/

omit [DecidableEq τ] in
theorem project_cons_src (g : Comm τ μ) (G : List (Comm τ μ)) :
    project g.src (g :: G) = .send g.dst g.tag g.msg :: project g.src G := by
  simp [project, Comm.event]

omit [DecidableEq τ] in
theorem project_cons_dst (g : Comm τ μ) (G : List (Comm τ μ)) :
    project g.dst (g :: G) = .recv g.src g.tag g.msg :: project g.dst G := by
  simp [project, Comm.event, g.ne.symm]

omit [DecidableEq τ] in
theorem project_cons_ne {r : ℕ} {g : Comm τ μ} (hs : r ≠ g.src) (hd : r ≠ g.dst)
    (G : List (Comm τ μ)) : project r (g :: G) = project r G := by
  simp [project, Comm.event, hs, hd]

omit [DecidableEq τ] in
theorem project_append (r : ℕ) (G H : List (Comm τ μ)) :
    project r (G ++ H) = project r G ++ project r H :=
  List.filterMap_append

omit [DecidableEq τ] in
theorem project_flatMap {ι : Type} (r : ℕ) (l : List ι) (f : ι → List (Comm τ μ)) :
    project r (l.flatMap f) = l.flatMap fun k => project r (f k) := by
  induction l with
  | nil => rfl
  | cons k l ih => rw [List.flatMap_cons, project_append, ih, List.flatMap_cons]

omit [DecidableEq τ] in
/-- A rank with events takes part in the choreography. -/
theorem exists_of_project_ne_nil {r : ℕ} {G : List (Comm τ μ)} (h : project r G ≠ []) :
    ∃ g ∈ G, r = g.src ∨ r = g.dst := by
  by_contra hno
  refine h (List.filterMap_eq_nil_iff.mpr fun g hg => ?_)
  have hs : r ≠ g.src := fun hr => hno ⟨g, hg, .inl hr⟩
  have hd : r ≠ g.dst := fun hr => hno ⟨g, hg, .inr hr⟩
  rw [Comm.event, if_neg hs, if_neg hd]

/-- What one rank is meant to send, the other is meant to receive. -/
theorem sends_project (a b : ℕ) (t : τ) (G : List (Comm τ μ)) :
    sends b t (project a G) = recvs a t (project b G) := by
  induction G with
  | nil => rfl
  | cons g G ih =>
    have hne := g.ne
    by_cases ha : a = g.src
    · -- `a` sends the head; `b` sees it only as its receiver
      subst ha
      rw [project_cons_src, sends]
      by_cases hb : b = g.dst
      · subst hb
        rw [project_cons_dst, recvs, ih]
        simp
      · by_cases hb' : b = g.src
        · subst hb'
          rw [project_cons_src, recvs, ih, if_neg (fun h => hne h.1.symm)]
        · rw [project_cons_ne hb' hb, ih, if_neg (fun h => hb h.1.symm)]
    · -- `a` does not send the head, so `b` receives nothing from `a` with it
      have hsends : sends b t (project a (g :: G)) = sends b t (project a G) := by
        by_cases ha' : a = g.dst
        · subst ha'
          rw [project_cons_dst, sends]
        · rw [project_cons_ne ha ha']
      rw [hsends, ih]
      by_cases hb : b = g.dst
      · subst hb
        rw [project_cons_dst, recvs, if_neg (fun h => ha h.1.symm)]
      · by_cases hb' : b = g.src
        · subst hb'
          rw [project_cons_src, recvs]
        · rw [project_cons_ne hb' hb]

theorem sends_suffix_length {b : ℕ} {t : τ} {l l' : List (Event τ μ)} (h : l <:+ l') :
    (sends b t l).length ≤ (sends b t l').length := by
  obtain ⟨u, rfl⟩ := h
  induction u with
  | nil => exact le_rfl
  | cons e u ih =>
    cases e with
    | send d t' m =>
      rw [List.cons_append, sends]
      split_ifs
      · exact le_trans ih (Nat.le_succ _)
      · exact ih
    | recv s t' m => exact ih

theorem recvs_suffix_length {a : ℕ} {t : τ} {l l' : List (Event τ μ)} (h : l <:+ l') :
    (recvs a t l).length ≤ (recvs a t l').length := by
  obtain ⟨u, rfl⟩ := h
  induction u with
  | nil => exact le_rfl
  | cons e u ih =>
    cases e with
    | send d t' m => exact ih
    | recv s t' m =>
      rw [List.cons_append, recvs]
      split_ifs
      · exact le_trans ih (Nat.le_succ _)
      · exact ih

/-! ### The message that can pass -/

/-- What is in flight, followed by what is still to be sent, is what is still to be
received. -/
def Balanced (chan : ℕ → ℕ → τ → List μ) (todo : ℕ → List (Event τ μ)) : Prop :=
  ∀ a b t, chan a b t ++ sends b t (todo a) = recvs a t (todo b)

/-- Two ranks that can meet, or one that can receive. -/
inductive Enabled (chan : ℕ → ℕ → τ → List μ) (todo : ℕ → List (Event τ μ)) : Prop
  /-- `a` is about to send what `b` is about to receive. -/
  | meet {a b : ℕ} {t : τ} {m : μ} {l l' : List (Event τ μ)} (hne : b ≠ a)
      (hempty : chan a b t = []) (ha : todo a = .send b t m :: l)
      (hb : todo b = .recv a t m :: l')
  /-- What `b` is about to receive is there. -/
  | recv {a b : ℕ} {t : τ} {m : μ} {q : List μ} {l : List (Event τ μ)}
      (hm : chan a b t = m :: q) (hb : todo b = .recv a t m :: l)

/-- **The first message that has not passed yet can pass.** The induction is on the
choreography, and its head is that message or has passed. -/
theorem exists_enabled {chan : ℕ → ℕ → τ → List μ} {todo : ℕ → List (Event τ μ)}
    (hbal : Balanced chan todo) {r : ℕ} (hr : todo r ≠ []) (G : List (Comm τ μ))
    (hsuffix : ∀ r, todo r <:+ project r G) : Enabled chan todo := by
  induction G with
  | nil => exact absurd (List.suffix_nil.mp (hsuffix r)) hr
  | cons g G ih =>
    have hsrc := hsuffix g.src
    have hdst := hsuffix g.dst
    have hb := hbal g.src g.dst g.tag
    have hmatch := sends_project g.src g.dst g.tag G
    rw [project_cons_src, List.suffix_cons_iff] at hsrc
    rw [project_cons_dst, List.suffix_cons_iff] at hdst
    rcases hsrc with hsrc | hsrc
    · -- not sent, so neither in flight nor received
      have hlen := congrArg List.length hb
      rw [hsrc, sends, if_pos ⟨rfl, rfl⟩, hmatch, List.length_append, List.length_cons] at hlen
      rcases hdst with hdst | hdst
      · rw [hdst, recvs, if_pos ⟨rfl, rfl⟩, List.length_cons] at hlen
        exact .meet g.ne.symm (List.length_eq_zero_iff.mp (by omega)) hsrc hdst
      · have hle := @recvs_suffix_length _ _ _ g.src g.tag _ _ hdst
        omega
    · rcases hdst with hdst | hdst
      · -- sent and not received, so it is the oldest in flight
        have hle := @sends_suffix_length _ _ _ g.dst g.tag _ _ hsrc
        have hlen := congrArg List.length hb
        rw [hdst, recvs, if_pos ⟨rfl, rfl⟩] at hb hlen
        rw [List.length_append, List.length_cons, ← hmatch] at hlen
        cases hchan : chan g.src g.dst g.tag with
        | nil =>
          rw [hchan, List.length_nil] at hlen
          omega
        | cons m q =>
          rw [hchan, List.cons_append] at hb
          obtain ⟨rfl, -⟩ := List.cons.inj hb
          exact .recv hchan hdst
      · -- sent and received: the head is behind both, and nobody else sees it
        refine ih fun r => ?_
        by_cases hrs : r = g.src
        · rwa [hrs]
        · by_cases hrd : r = g.dst
          · rwa [hrd]
          · rw [← project_cons_ne hrs hrd]
            exact hsuffix r

/-! ### Following a choreography -/

/-- The action is the next event ahead, or a computation before it, and leads to a
state that goes with what is then ahead. -/
def Action.Obeys (At : List (Event τ μ) → σ → Prop) (todo : List (Event τ μ)) :
    Action σ τ μ → Prop
  | .run p => Ends p (At todo)
  | .send dst tag m s => ∃ l, todo = .send dst tag m :: l ∧ At l s
  | .recv src tag k => ∃ m l, todo = .recv src tag m :: l ∧ At l (k m)
  | .exit => False
  | .halt => todo = []

variable {prog : Program σ τ μ} {size : ℕ} {At : ℕ → List (Event τ μ) → σ → Prop}
  {G : List (Comm τ μ)} {c₀ c : Config σ τ μ}

/-- The ranks follow the choreography `G`, starting in `c₀`: `At r todo s` says that
rank `r` may be in state `s` with the events `todo` ahead. -/
structure Follows (prog : Program σ τ μ) (size : ℕ) (At : ℕ → List (Event τ μ) → σ → Prop)
    (G : List (Comm τ μ)) (c₀ : Config σ τ μ) : Prop where
  /-- The choreography is about the ranks below `size`. -/
  within : ∀ g ∈ G, g.src < size ∧ g.dst < size
  /-- At the start everything is ahead. -/
  start : ∀ r, r < size → At r (project r G) (c₀.loc r)
  /-- No message is in flight at the start. -/
  quiet : ∀ a b t, c₀.chan a b t = []
  /-- The job has not been ended at the start. -/
  running : c₀.ended = false
  /-- Every action obeys. -/
  obeys : ∀ r todo s, r < size → At r todo s → (prog r s).Obeys (At r) todo

/-- A configuration in the middle of the choreography `G`, with `todo r` ahead of rank `r`. -/
structure OnTrack (size : ℕ) (At : ℕ → List (Event τ μ) → σ → Prop) (G : List (Comm τ μ))
    (todo : ℕ → List (Event τ μ)) (c : Config σ τ μ) : Prop where
  /-- Every rank is in a state that goes with what is ahead. -/
  loc : ∀ r, r < size → At r (todo r) (c.loc r)
  /-- What is ahead is a rest of the choreography. -/
  suffix : ∀ r, todo r <:+ project r G
  /-- The channels balance. -/
  balance : Balanced c.chan todo
  /-- The job goes on. -/
  running : c.ended = false

omit [DecidableEq τ] in
/-- Rank `r` is done with the first event ahead. -/
theorem suffix_update {todo : ℕ → List (Event τ μ)} (h : ∀ q, todo q <:+ project q G) {r : ℕ}
    {e : Event τ μ} {l : List (Event τ μ)} (hr : todo r = e :: l) (q : ℕ) :
    Function.update todo r l q <:+ project q G := by
  by_cases hq : q = r
  · subst hq
    rw [Function.update_self]
    exact ((hr ▸ List.suffix_cons e l : l <:+ todo q)).trans (h q)
  · rw [Function.update_of_ne hq]
    exact h q

omit [DecidableEq τ] in
theorem loc_update {todo : ℕ → List (Event τ μ)} (h : ∀ q, q < size → At q (todo q) (c.loc q))
    {r : ℕ} {s : σ} {l : List (Event τ μ)} (hr : At r l s) (q : ℕ) (hq : q < size) :
    At q (Function.update todo r l q) ((c.setLoc r s).loc q) := by
  by_cases hqr : q = r
  · subst hqr
    rwa [Function.update_self, Config.setLoc_loc_self]
  · rw [Function.update_of_ne hqr, Config.setLoc_loc_ne _ _ _ hqr]
    exact h q hq

/-- A buffered send keeps the balance. -/
theorem Balanced.send {todo : ℕ → List (Event τ μ)} (h : Balanced c.chan todo) {r dst : ℕ}
    {tag : τ} {m : μ} {l : List (Event τ μ)} (hr : todo r = .send dst tag m :: l) :
    Balanced (c.setChan r dst tag (c.chan r dst tag ++ [m])).chan (Function.update todo r l) := by
  intro a b t
  have hold := h a b t
  have hrecvs : recvs a t (Function.update todo r l b) = recvs a t (todo b) := by
    by_cases hb : b = r
    · subst hb
      rw [Function.update_self, hr, recvs]
    · rw [Function.update_of_ne hb]
  rw [hrecvs, ← hold]
  by_cases ha : a = r
  · subst ha
    rw [Function.update_self, hr, sends]
    by_cases hbt : dst = b ∧ tag = t
    · -- the message moves from what is to be sent to what is in flight
      obtain ⟨rfl, rfl⟩ := hbt
      rw [Config.setChan_chan_self, if_pos ⟨rfl, rfl⟩, List.append_assoc, List.singleton_append]
    · rw [Config.setChan_chan_ne _ _ _ _ _ (fun hc => hbt ⟨hc.2.1.symm, hc.2.2.symm⟩),
        if_neg hbt]
  · rw [Function.update_of_ne ha, Config.setChan_chan_ne _ _ _ _ _ (fun hc => ha hc.1)]

/-- A receive takes the message that was due, and keeps the balance. -/
theorem Balanced.recv {todo : ℕ → List (Event τ μ)} (h : Balanced c.chan todo) {r src : ℕ}
    {tag : τ} {m m' : μ} {rest : List μ} {l : List (Event τ μ)}
    (hm : c.chan src r tag = m :: rest) (hr : todo r = .recv src tag m' :: l) :
    m = m' ∧ Balanced (c.setChan src r tag rest).chan (Function.update todo r l) := by
  -- on this channel the balance starts with the oldest message on both sides
  have hdue := h src r tag
  rw [hm, hr, recvs, if_pos ⟨rfl, rfl⟩, List.cons_append] at hdue
  obtain ⟨hmm, hrest⟩ := List.cons.inj hdue
  refine ⟨hmm, fun a b t => ?_⟩
  have hsends : sends b t (Function.update todo r l a) = sends b t (todo a) := by
    by_cases ha : a = r
    · subst ha
      rw [Function.update_self, hr, sends]
    · rw [Function.update_of_ne ha]
  rw [hsends]
  by_cases hchan : a = src ∧ b = r ∧ t = tag
  · obtain ⟨rfl, rfl, rfl⟩ := hchan
    rw [Config.setChan_chan_self, Function.update_self, hrest]
  · rw [Config.setChan_chan_ne _ _ _ _ _ hchan, h a b t]
    by_cases hb : b = r
    · subst hb
      rw [Function.update_self, hr, recvs,
        if_neg (fun hc => hchan ⟨hc.1.symm, rfl, hc.2.symm⟩)]
    · rw [Function.update_of_ne hb]

/-- **Every interleaving stays on track.** -/
theorem Reachable.onTrack (hf : Follows prog size At G c₀) (h : Reachable prog size c₀ c) :
    ∃ todo, OnTrack size At G todo c := by
  refine Reachable.induct (fun c => ∃ todo, OnTrack size At G todo c) h ?_ ?_ ?_ ?_ ?_ ?_
  · -- at the start everything is ahead, and what is sent is what is received
    refine ⟨fun r => project r G, hf.start, fun r => List.suffix_rfl, fun a b t => ?_, hf.running⟩
    rw [hf.quiet, List.nil_append, sends_project]
  · rintro c r p s' ⟨todo, ht⟩ - hr hact hp
    have hobeys := hf.obeys r _ _ hr (ht.loc r hr)
    rw [hact] at hobeys
    -- a computation leaves what is ahead as it is
    have hloc := @loc_update _ _ _ size At c todo ht.loc r s' _ (hobeys.of_unique hp)
    rw [Function.update_eq_self] at hloc
    exact ⟨todo, hloc, ht.suffix, ht.balance, ht.running⟩
  · rintro c r p ⟨todo, ht⟩ - hr hact hp
    have hobeys := hf.obeys r _ _ hr (ht.loc r hr)
    rw [hact] at hobeys
    exact absurd hp hobeys.not_fails
  · rintro c r dst tag m s' ⟨todo, ht⟩ - hr hact
    have hobeys := hf.obeys r _ _ hr (ht.loc r hr)
    rw [hact] at hobeys
    obtain ⟨l, hl, hs'⟩ := hobeys
    exact ⟨Function.update todo r l, loc_update ht.loc hs', suffix_update ht.suffix hl,
      ht.balance.send hl, ht.running⟩
  · rintro c r src tag m rest k ⟨todo, ht⟩ - hr hm hact
    have hobeys := hf.obeys r _ _ hr (ht.loc r hr)
    rw [hact] at hobeys
    obtain ⟨m', l, hl, hs'⟩ := hobeys
    -- the message that came is the one that was due
    obtain ⟨rfl, hbal⟩ := ht.balance.recv hm hl
    exact ⟨Function.update todo r l, loc_update ht.loc hs', suffix_update ht.suffix hl, hbal,
      ht.running⟩
  · rintro c r ⟨todo, ht⟩ - hr hact
    have hobeys := hf.obeys r _ _ hr (ht.loc r hr)
    rw [hact] at hobeys
    exact hobeys.elim

omit [DecidableEq τ] in
theorem Action.Obeys.of_send {A : List (Event τ μ) → σ → Prop} {act : Action σ τ μ} {dst : ℕ}
    {tag : τ} {m : μ} {l : List (Event τ μ)} (h : act.Obeys A (.send dst tag m :: l)) :
    (∃ p, act = .run p) ∨ ∃ s, act = .send dst tag m s := by
  cases act with
  | run p => exact .inl ⟨p, rfl⟩
  | send d t m' s =>
    obtain ⟨l', hl, -⟩ := h
    cases hl
    exact .inr ⟨s, rfl⟩
  | recv s t k =>
    obtain ⟨m', l', hl, -⟩ := h
    cases hl
  | exit => exact h.elim
  | halt => cases h

omit [DecidableEq τ] in
theorem Action.Obeys.of_recv {A : List (Event τ μ) → σ → Prop} {act : Action σ τ μ} {src : ℕ}
    {tag : τ} {m : μ} {l : List (Event τ μ)} (h : act.Obeys A (.recv src tag m :: l)) :
    (∃ p, act = .run p) ∨ ∃ k, act = .recv src tag k := by
  cases act with
  | run p => exact .inl ⟨p, rfl⟩
  | send d t m' s =>
    obtain ⟨l', hl, -⟩ := h
    cases hl
  | recv s t k =>
    obtain ⟨m', l', hl, -⟩ := h
    cases hl
    exact .inr ⟨k, rfl⟩
  | exit => exact h.elim
  | halt => cases h

/-- A rank with events ahead is below `size`. -/
theorem OnTrack.lt_size (hf : Follows prog size At G c₀) {todo : ℕ → List (Event τ μ)}
    (ht : OnTrack size At G todo c) {r : ℕ} {e : Event τ μ} {l : List (Event τ μ)}
    (hr : todo r = e :: l) : r < size := by
  have hne : project r G ≠ [] := by
    intro hnil
    have hsuffix := ht.suffix r
    rw [hnil, List.suffix_nil, hr] at hsuffix
    cases hsuffix
  obtain ⟨g, hg, rfl | rfl⟩ := exists_of_project_ne_nil hne
  · exact (hf.within g hg).1
  · exact (hf.within g hg).2

/-- **No deadlock.** As long as some rank has not halted, some step is possible, and no
send of that step needs a buffer. -/
theorem OnTrack.progress (hf : Follows prog size At G c₀) {todo : ℕ → List (Event τ μ)}
    (ht : OnTrack size At G todo c) {r : ℕ} (hr : r < size) (hlive : prog r (c.loc r) ≠ .halt) :
    ∃ c', Step prog size false c c' := by
  have hobeys := fun q hq => hf.obeys q _ _ hq (ht.loc q hq)
  -- a computation can always go on
  by_cases hrun : ∃ q, q < size ∧ ∃ p, prog q (c.loc q) = .run p
  · obtain ⟨q, hq, p, hp⟩ := hrun
    have hends := hobeys q hq
    rw [hp] at hends
    obtain ⟨s', hs', -⟩ := hends
    exact ⟨_, .run ht.running hq hp hs'⟩
  -- otherwise every rank that has not halted communicates
  have hne : todo r ≠ [] := by
    intro hnil
    have h := hobeys r hr
    rw [hnil] at h
    cases hact : prog r (c.loc r) with
    | run p => exact hrun ⟨r, hr, p, hact⟩
    | send d t m s => rw [hact] at h; obtain ⟨l, hl, -⟩ := h; cases hl
    | recv s t k => rw [hact] at h; obtain ⟨m, l, hl, -⟩ := h; cases hl
    | exit => rw [hact] at h; exact h
    | halt => exact hlive hact
  -- two of them meet, or one receives what is in flight
  cases exists_enabled ht.balance hne G ht.suffix with
  | @meet a b t m l l' hba hempty ha hb =>
    have hsize := ht.lt_size hf ha
    have hsize' := ht.lt_size hf hb
    have hsend := hobeys a hsize
    have hrecv := hobeys b hsize'
    rw [ha] at hsend
    rw [hb] at hrecv
    obtain ⟨s, hs⟩ := hsend.of_send.resolve_left fun h => hrun ⟨a, hsize, h⟩
    obtain ⟨k, hk⟩ := hrecv.of_recv.resolve_left fun h => hrun ⟨b, hsize', h⟩
    exact ⟨_, .meet ht.running hsize hsize' hba hempty hs hk⟩
  | @recv a b t m q l hm hb =>
    have hsize := ht.lt_size hf hb
    have hrecv := hobeys b hsize
    rw [hb] at hrecv
    obtain ⟨k, hk⟩ := hrecv.of_recv.resolve_left fun h => hrun ⟨b, hsize, h⟩
    exact ⟨_, .recv ht.running hsize hm hk⟩

/-- **At the end.** When every rank has halted, each is in a final state and no message
is left. -/
theorem OnTrack.halted (hf : Follows prog size At G c₀) {todo : ℕ → List (Event τ μ)}
    (ht : OnTrack size At G todo c) (hhalt : ∀ r, r < size → prog r (c.loc r) = .halt) :
    (∀ r, r < size → At r [] (c.loc r)) ∧ ∀ a b t, c.chan a b t = [] := by
  have htodo : ∀ r, todo r = [] := by
    intro r
    by_cases hr : r < size
    · have hobeys := hf.obeys r _ _ hr (ht.loc r hr)
      rw [hhalt r hr] at hobeys
      exact hobeys
    · cases hcase : todo r with
      | nil => rfl
      | cons e l => exact absurd (ht.lt_size hf hcase) hr
  refine ⟨fun r hr => ?_, fun a b t => ?_⟩
  · rw [← htodo r]
    exact ht.loc r hr
  · have hbal := ht.balance a b t
    rw [htodo a, htodo b] at hbal
    exact (List.append_eq_nil_iff.mp hbal).1

end Process
