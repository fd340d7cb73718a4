import SqlCode.Exec.Prog
import Mathlib.Logic.Relation
import Mathlib.Logic.Function.Basic

/-!
# Message passing with buffered and blocking sends

The ranks below `size` run one sequential program each and exchange messages
over reliable channels, one for each sender, receiver and tag, each a queue. A
`Program` says what a rank does next in a local state: an `Action`, which is a
computation of its own, a send, a receive, or the end of the whole job.

A send may be **buffered**, which appends the message to its channel at once, or
it may block until its receive is posted and then **meet** it, which passes the
message on without the channel. `Step prog size true` has both kinds, and
`Step prog size false` only the blocking one.

Reachability is taken for `Step prog size true`, so it covers every mixture of
the two, and it needs only half of the rules: a meeting is a buffered send with
the receive right after it (`Step.meet_split`), so an invariant of computations,
buffered sends and receives holds in every reachable configuration
(`Reachable.induct`).
-/

namespace Process

open Exec

/-- What a rank does next: `σ` are the local states, `τ` the tags, `μ` the messages. -/
inductive Action (σ τ μ : Type)
  /-- Compute, and go on with the result; a fault ends the job. -/
  | run (p : Prog σ)
  /-- Send `m` to `dst`, and go on with `s`. -/
  | send (dst : ℕ) (tag : τ) (m : μ) (s : σ)
  /-- Receive from `src`, and go on with `k m` if what comes is `m`. -/
  | recv (src : ℕ) (tag : τ) (k : μ → σ)
  /-- End the job. -/
  | exit
  /-- Nothing any more. -/
  | halt

/-- The next action of each rank in each local state. -/
abbrev Program (σ τ μ : Type) := ℕ → σ → Action σ τ μ

/-- The local states, the messages in flight, and whether the job was ended. -/
@[ext] structure Config (σ τ μ : Type) where
  /-- The state of each rank. -/
  loc : ℕ → σ
  /-- The messages from a sender to a receiver under a tag, oldest first. -/
  chan : ℕ → ℕ → τ → List μ
  /-- Whether some rank ended the job. -/
  ended : Bool

variable {σ τ μ : Type} [DecidableEq τ]

namespace Config

/-- Rank `r` goes on with `s`. -/
def setLoc (c : Config σ τ μ) (r : ℕ) (s : σ) : Config σ τ μ :=
  { c with loc := Function.update c.loc r s }

/-- The channel from `src` to `dst` under `tag` becomes `l`. -/
def setChan (c : Config σ τ μ) (src dst : ℕ) (tag : τ) (l : List μ) : Config σ τ μ :=
  { c with chan := fun a b t => if a = src ∧ b = dst ∧ t = tag then l else c.chan a b t }

variable (c : Config σ τ μ) (r src dst : ℕ) (s : σ) (tag : τ) (l : List μ)

omit [DecidableEq τ] in
@[simp] theorem setLoc_loc_self : (c.setLoc r s).loc r = s := by
  simp [setLoc]

omit [DecidableEq τ] in
theorem setLoc_loc_ne {q : ℕ} (h : q ≠ r) : (c.setLoc r s).loc q = c.loc q := by
  simp [setLoc, h]

omit [DecidableEq τ] in
@[simp] theorem setLoc_chan : (c.setLoc r s).chan = c.chan := rfl

omit [DecidableEq τ] in
@[simp] theorem setLoc_ended : (c.setLoc r s).ended = c.ended := rfl

@[simp] theorem setChan_loc : (c.setChan src dst tag l).loc = c.loc := rfl

@[simp] theorem setChan_ended : (c.setChan src dst tag l).ended = c.ended := rfl

@[simp] theorem setChan_chan_self : (c.setChan src dst tag l).chan src dst tag = l :=
  if_pos ⟨rfl, rfl, rfl⟩

theorem setChan_chan_ne {a b : ℕ} {t : τ} (h : ¬ (a = src ∧ b = dst ∧ t = tag)) :
    (c.setChan src dst tag l).chan a b t = c.chan a b t :=
  if_neg h

/-- A message that is sent leaves the oldest message of every channel in its place. -/
theorem setChan_append_head {a b : ℕ} {t : τ} {x : μ} {rest : List μ} (m : μ)
    (h : c.chan a b t = x :: rest) :
    ∃ rest', (c.setChan src dst tag (c.chan src dst tag ++ [m])).chan a b t = x :: rest' := by
  by_cases hab : a = src ∧ b = dst ∧ t = tag
  · obtain ⟨rfl, rfl, rfl⟩ := hab
    exact ⟨rest ++ [m], by rw [setChan_chan_self, h, List.cons_append]⟩
  · exact ⟨rest, by rw [setChan_chan_ne _ _ _ _ _ hab, h]⟩

end Config

/-! ### Steps -/

/-- One step of the system. Sends may be buffered if `buffered` is set. -/
inductive Step (prog : Program σ τ μ) (size : ℕ) (buffered : Bool) :
    Config σ τ μ → Config σ τ μ → Prop
  /-- A rank computes. -/
  | run {c : Config σ τ μ} {r : ℕ} {p : Prog σ} {s' : σ} (he : c.ended = false) (hr : r < size)
      (h : prog r (c.loc r) = .run p) (hp : Returns p s') :
      Step prog size buffered c (c.setLoc r s')
  /-- A rank runs into a fault. -/
  | fault {c : Config σ τ μ} {r : ℕ} {p : Prog σ} (he : c.ended = false) (hr : r < size)
      (h : prog r (c.loc r) = .run p) (hp : Raises p) :
      Step prog size buffered c { c with ended := true }
  /-- A rank sends into the channel and goes on. -/
  | send {c : Config σ τ μ} {r dst : ℕ} {tag : τ} {m : μ} {s' : σ} (hb : buffered = true)
      (he : c.ended = false) (hr : r < size) (h : prog r (c.loc r) = .send dst tag m s') :
      Step prog size buffered c
        ((c.setLoc r s').setChan r dst tag (c.chan r dst tag ++ [m]))
  /-- A rank receives the oldest message of a channel. -/
  | recv {c : Config σ τ μ} {r src : ℕ} {tag : τ} {m : μ} {rest : List μ} {k : μ → σ}
      (he : c.ended = false) (hr : r < size) (hm : c.chan src r tag = m :: rest)
      (h : prog r (c.loc r) = .recv src tag k) :
      Step prog size buffered c ((c.setLoc r (k m)).setChan src r tag rest)
  /-- A rank that sends and the rank that receives go on together; no older message waits. -/
  | meet {c : Config σ τ μ} {r q : ℕ} {tag : τ} {m : μ} {s' : σ} {k : μ → σ}
      (he : c.ended = false) (hr : r < size) (hq : q < size) (hne : q ≠ r)
      (hempty : c.chan r q tag = []) (hs : prog r (c.loc r) = .send q tag m s')
      (hk : prog q (c.loc q) = .recv r tag k) :
      Step prog size buffered c ((c.setLoc r s').setLoc q (k m))
  /-- A rank ends the job, and every other rank with it. -/
  | exit {c : Config σ τ μ} {r : ℕ} (he : c.ended = false) (hr : r < size)
      (h : prog r (c.loc r) = .exit) : Step prog size buffered c { c with ended := true }

/-- The configurations that a run from `c₀` can be in. -/
def Reachable (prog : Program σ τ μ) (size : ℕ) (c₀ c : Config σ τ μ) : Prop :=
  Relation.ReflTransGen (Step prog size true) c₀ c

variable {prog : Program σ τ μ} {size : ℕ}

/-- A step that needs no buffer is possible with buffers. -/
theorem Step.buffered {c c' : Config σ τ μ} (h : Step prog size false c c') (b : Bool) :
    Step prog size b c c' := by
  cases h with
  | run he hr h hp => exact .run he hr h hp
  | fault he hr h hp => exact .fault he hr h hp
  | send hb => cases hb
  | recv he hr hm h => exact .recv he hr hm h
  | meet he hr hq hne hempty hs hk => exact .meet he hr hq hne hempty hs hk
  | exit he hr h => exact .exit he hr h

/-- **A meeting is a buffered send and the receive of its message.** -/
theorem Step.meet_split {c : Config σ τ μ} {r q : ℕ} {tag : τ} {m : μ} {s' : σ} {k : μ → σ}
    (hne : q ≠ r) (hempty : c.chan r q tag = []) (hk : prog q (c.loc q) = .recv r tag k) :
    let c₁ := (c.setLoc r s').setChan r q tag (c.chan r q tag ++ [m])
    c₁.chan r q tag = [m] ∧ prog q (c₁.loc q) = .recv r tag k ∧
      (c₁.setLoc q (k m)).setChan r q tag [] = (c.setLoc r s').setLoc q (k m) := by
  intro c₁
  refine ⟨?_, ?_, ?_⟩
  · rw [Config.setChan_chan_self, hempty, List.nil_append]
  · rw [Config.setChan_loc, Config.setLoc_loc_ne _ _ _ hne]
    exact hk
  · refine Config.ext rfl ?_ rfl
    funext a b t
    by_cases h : a = r ∧ b = q ∧ t = tag
    · obtain ⟨rfl, rfl, rfl⟩ := h
      rw [Config.setChan_chan_self]
      exact hempty.symm
    · rw [Config.setChan_chan_ne _ _ _ _ _ h]
      exact Config.setChan_chan_ne _ _ _ _ _ h

/-- **The invariant rule.** What holds at the start and survives computations,
buffered sends, receives and the end of the job holds in every reachable
configuration, meetings included. -/
theorem Reachable.induct {c₀ c : Config σ τ μ} (I : Config σ τ μ → Prop)
    (h : Reachable prog size c₀ c) (start : I c₀)
    (run : ∀ c r p s', I c → c.ended = false → r < size → prog r (c.loc r) = .run p →
      Returns p s' → I (c.setLoc r s'))
    (fault : ∀ c r p, I c → c.ended = false → r < size → prog r (c.loc r) = .run p →
      Raises p → I { c with ended := true })
    (send : ∀ c r dst tag m s', I c → c.ended = false → r < size →
      prog r (c.loc r) = .send dst tag m s' →
      I ((c.setLoc r s').setChan r dst tag (c.chan r dst tag ++ [m])))
    (recv : ∀ c r src tag m rest k, I c → c.ended = false → r < size →
      c.chan src r tag = m :: rest → prog r (c.loc r) = .recv src tag k →
      I ((c.setLoc r (k m)).setChan src r tag rest))
    (exit : ∀ c r, I c → c.ended = false → r < size → prog r (c.loc r) = .exit →
      I { c with ended := true }) :
    I c := by
  induction h with
  | refl => exact start
  | tail _ hstep ih =>
    cases hstep with
    | run he hr h hp => exact run _ _ _ _ ih he hr h hp
    | fault he hr h hp => exact fault _ _ _ ih he hr h hp
    | send _ he hr h => exact send _ _ _ _ _ _ ih he hr h
    | recv he hr hm h => exact recv _ _ _ _ _ _ _ ih he hr hm h
    | meet he hr hq hne hempty hs hk =>
      -- replay the meeting as two steps
      obtain ⟨hchan, hrecv, heq⟩ := Step.meet_split hne hempty hk
      rw [← heq]
      exact recv _ _ _ _ _ _ _ (send _ _ _ _ _ _ ih he hr hs) he hq hchan hrecv
    | exit he hr h => exact exit _ _ ih he hr h

/-! ### Invariants of one rank, and runs in stages -/

/-- The action leads to states in which `I` holds. -/
def Action.Keeps (I : σ → Prop) : Action σ τ μ → Prop
  | .run p => ∀ s, Returns p s → I s
  | .send _ _ _ s => I s
  | .recv _ _ k => ∀ m, I (k m)
  | .exit => True
  | .halt => True

omit [DecidableEq τ] in
theorem Action.Keeps.mono {I K : σ → Prop} {act : Action σ τ μ} (h : act.Keeps I)
    (hIK : ∀ s, I s → K s) : act.Keeps K := by
  cases act with
  | run p => exact fun s hs => hIK s (h s hs)
  | send dst tag m s => exact hIK s h
  | recv src tag k => exact fun m => hIK _ (h m)
  | exit => exact trivial
  | halt => exact trivial

omit [DecidableEq τ] in
/-- What holds of every state is kept by every action. -/
theorem Action.keeps_of_forall {I : σ → Prop} (h : ∀ s, I s) (act : Action σ τ μ) :
    act.Keeps I := by
  cases act with
  | run p => exact fun s _ => h s
  | send dst tag m s => exact h s
  | recv src tag k => exact fun m => h _
  | exit => exact trivial
  | halt => exact trivial

omit [DecidableEq τ] in
theorem Action.keeps_pure {I : σ → Prop} {s : σ} (h : I s) :
    (Action.run (pure s) : Action σ τ μ).Keeps I := by
  intro s' hs'
  rwa [hs'.unique (returns_pure s)]

omit [DecidableEq τ] in
theorem Config.loc_invariant {I : ℕ → σ → Prop} {c : Config σ τ μ} {r : ℕ} {s : σ}
    (hc : ∀ q, I q (c.loc q)) (hs : I r s) (q : ℕ) : I q ((c.setLoc r s).loc q) := by
  by_cases hq : q = r
  · subst hq
    rwa [Config.setLoc_loc_self]
  · rw [Config.setLoc_loc_ne _ _ _ hq]
    exact hc q

/-- **Local invariants.** What every action of a rank keeps in that rank's own state holds
in every reachable configuration, whatever the other ranks do. -/
theorem Reachable.loc_invariant {c₀ c : Config σ τ μ} (I : ℕ → σ → Prop)
    (h : Reachable prog size c₀ c) (start : ∀ r, I r (c₀.loc r))
    (keeps : ∀ r s, r < size → I r s → (prog r s).Keeps (I r)) : ∀ r, I r (c.loc r) := by
  refine Reachable.induct (fun c => ∀ r, I r (c.loc r)) h start ?_ ?_ ?_ ?_ ?_
  · intro c r p s' hc _ hr hact hp
    have hkeeps := keeps r _ hr (hc r)
    rw [hact] at hkeeps
    exact Config.loc_invariant hc (hkeeps s' hp)
  · exact fun c r p hc _ _ _ _ => hc
  · intro c r dst tag m s' hc _ hr hact
    have hkeeps := keeps r _ hr (hc r)
    rw [hact] at hkeeps
    exact Config.loc_invariant hc hkeeps
  · intro c r src tag m rest k hc _ hr _ hact
    have hkeeps := keeps r _ hr (hc r)
    rw [hact] at hkeeps
    exact Config.loc_invariant hc (hkeeps m)
  · exact fun c r hc _ _ _ => hc

/-- A rank whose first computation fails stays where it is. -/
theorem Reachable.loc_of_fails {E : Fault → Prop} {c₀ c : Config σ τ μ} {r : ℕ} {p : Prog σ}
    (h : Reachable prog size c₀ c) (hp : prog r (c₀.loc r) = .run p) (hf : Fails E p) :
    c.loc r = c₀.loc r := by
  refine h.loc_invariant (fun q s => q = r → s = c₀.loc r) (fun q hq => by rw [hq]) ?_ r rfl
  intro q s _ hs
  by_cases hq : q = r
  · -- the failing computation returns nothing
    subst hq
    rw [hs rfl, hp]
    intro s' hret
    exact absurd hret (hf.not_returns s')
  · -- nothing is said about the other ranks
    exact Action.keeps_of_forall (fun _ hqr => absurd hqr hq) _

/-- **Runs in stages.** If every configuration of stage `k` has a run to one of stage
`k + 1`, then one of stage `0` has a run to one of stage `n`. -/
theorem Reachable.stages {c₀ c : Config σ τ μ} (I : ℕ → Config σ τ μ → Prop) (n : ℕ)
    (h : Reachable prog size c₀ c) (start : I 0 c)
    (next : ∀ k c, k < n → Reachable prog size c₀ c → I k c →
      ∃ c', Reachable prog size c₀ c' ∧ I (k + 1) c') :
    ∃ c', Reachable prog size c₀ c' ∧ I n c' := by
  induction n with
  | zero => exact ⟨c, h, start⟩
  | succ n ih =>
    obtain ⟨c', hc', hI⟩ := ih fun k c hk => next k c (by omega)
    exact next n c' (by omega) hc' hI

end Process
