import SqlCode.Exec.Prog
import Mathlib.Logic.Function.Basic
import Mathlib.Logic.Relation
import Mathlib.Data.Set.Basic

/-!
# Threads over a shared memory

A `Thread` is a program whose steps are reads and writes of single locations of a
memory that it shares with other threads; what it computes between two accesses
is private. The memory counts the writes to each location.

Threads are interleaved access by access (`Step`). They are independent when no
thread writes a location that another one reads or writes (`Independent`). For
independent threads,

* `Step.sequential` — an access leaves alone what the threads yield when they
  are run one after the other from where they are;
* `interleaving_eq_sequential` — so every interleaving that runs to the end
  leaves the memory as running them one after the other does, values and counts
  alike.

That the threads run one after the other is itself an interleaving
(`reaches_sequential`), from wherever they are.
-/

namespace SharedMemory

open Exec

/-- A program over locations `L` with values `V`. -/
inductive Thread (L V α : Type) : Type
  /-- The program is done. -/
  | done (a : α)
  /-- Read a location and go on with its value. -/
  | read (l : L) (k : V → Thread L V α)
  /-- Write a location and go on. -/
  | write (l : L) (v : V) (k : Thread L V α)

variable {L V α β : Type}

namespace Thread

/-- One program after the other. -/
def bind (f : α → Thread L V β) : Thread L V α → Thread L V β
  | done a => f a
  | read l k => read l fun v => bind f (k v)
  | write l v k => write l v (bind f k)

instance : Monad (Thread L V) where
  pure := done
  bind t f := bind f t

/-- The access that reads `l`. -/
def get (l : L) : Thread L V V := read l done

/-- The access that writes `v` to `l`. -/
def put (l : L) (v : V) : Thread L V Unit := write l v (done ())

@[simp] theorem done_bind (a : α) (f : α → Thread L V β) : (done a >>= f) = f a := rfl

@[simp] theorem read_bind (l : L) (k : V → Thread L V α) (f : α → Thread L V β) :
    (read l k >>= f) = read l fun v => k v >>= f := rfl

@[simp] theorem write_bind (l : L) (v : V) (k : Thread L V α) (f : α → Thread L V β) :
    (write l v k >>= f) = write l v (k >>= f) := rfl

/-! ### Footprints -/

/-- All reads are of locations in `S`, and all writes to locations in `W`. -/
def Within (S W : Set L) : Thread L V α → Prop
  | done _ => True
  | read l k => l ∈ S ∧ ∀ v, Within S W (k v)
  | write l _ k => l ∈ W ∧ Within S W k

/-- Whatever the program reads, it writes the locations `ls`, in this order. -/
def Writes : List L → Thread L V α → Prop
  | ls, done _ => ls = []
  | ls, read _ k => ∀ v, Writes ls (k v)
  | ls, write l _ k => ∃ ls', ls = l :: ls' ∧ Writes ls' k

section Footprints

variable {S W : Set L} {x y : List L} {t : Thread L V α} {f : α → Thread L V β} {l : L}

theorem within_get (h : l ∈ S) : (get l : Thread L V V).Within S W :=
  ⟨h, fun _ => trivial⟩

theorem within_put (h : l ∈ W) (v : V) : (put l v).Within S W :=
  ⟨h, trivial⟩

theorem Within.bind (ht : t.Within S W) (hf : ∀ a, (f a).Within S W) :
    (t >>= f).Within S W := by
  induction t with
  | done a => exact hf a
  | read l k ih => exact ⟨ht.1, fun v => ih v (ht.2 v)⟩
  | write l v k ih => exact ⟨ht.1, ih ht.2⟩

theorem writes_get (l : L) : (get l : Thread L V V).Writes [] :=
  fun _ => rfl

theorem writes_put (l : L) (v : V) : (put l v).Writes [l] :=
  ⟨[], rfl, rfl⟩

theorem Writes.bind (ht : t.Writes x) (hf : ∀ a, (f a).Writes y) :
    (t >>= f).Writes (x ++ y) := by
  induction t generalizing x with
  | done a =>
    obtain rfl : x = [] := ht
    exact hf a
  | read l k ih => exact fun v => ih v (ht v)
  | write l v k ih =>
    obtain ⟨tail, rfl, hk⟩ := ht
    exact ⟨tail ++ y, rfl, ih hk⟩

/-- A loop stays within the footprint that its rounds share. -/
theorem within_forCount {σ : Type} {lo step count : ℕ} {s : σ} {body : ℕ → σ → Thread L V σ}
    (hbody : ∀ t s, t < count → (body (lo + t * step) s).Within S W) :
    (forCount lo step count s body).Within S W := by
  induction count generalizing lo s with
  | zero => trivial
  | succ count ih =>
    have h0 := hbody 0 s (Nat.succ_pos count)
    rw [zero_mul, add_zero] at h0
    refine h0.bind fun s => ih fun t s ht => ?_
    have h := hbody (t + 1) s (Nat.succ_lt_succ ht)
    rwa [Nat.succ_mul, Nat.add_comm (t * step), ← Nat.add_assoc] at h

/-- A loop writes what its rounds write, round after round. -/
theorem writes_forCount {σ : Type} {lo step count : ℕ} {s : σ} {body : ℕ → σ → Thread L V σ}
    {ls : ℕ → List L} (hbody : ∀ i s, (body i s).Writes (ls i)) :
    (forCount lo step count s body).Writes ((List.range' lo count step).flatMap ls) := by
  induction count generalizing lo s with
  | zero => rfl
  | succ count ih => exact (hbody lo s).bind fun s => ih

end Footprints

end Thread

/-! ### The memory -/

/-- A memory that counts the writes. -/
structure Memory (L V : Type) where
  /-- The contents. -/
  val : L → V
  /-- How often each location has been written. -/
  writes : L → ℕ

variable [DecidableEq L]

/-- The memory after a write. -/
def Memory.write (m : Memory L V) (l : L) (v : V) : Memory L V where
  val := Function.update m.val l v
  writes := Function.update m.writes l (m.writes l + 1)

section Memory

variable (m : Memory L V) {l l' : L} (v v' : V)

theorem Memory.val_write_self : (m.write l v).val l = v := by
  simp [Memory.write]

theorem Memory.val_write_ne (h : l' ≠ l) : (m.write l v).val l' = m.val l' := by
  simp [Memory.write, h]

theorem Memory.writes_write : (m.write l v).writes l' = m.writes l' + if l = l' then 1 else 0 := by
  by_cases h : l = l'
  · subst h
    rw [if_pos rfl]
    exact Function.update_self l _ m.writes
  · rw [if_neg h]
    exact Function.update_of_ne (Ne.symm h) _ m.writes

/-- Writes to different locations commute. -/
theorem Memory.write_comm (h : l ≠ l') :
    (m.write l v).write l' v' = (m.write l' v').write l v := by
  simp only [Memory.write, Function.update_of_ne h, Function.update_of_ne h.symm,
    Function.update_comm h]

end Memory

/-- What a thread yields and leaves when it runs alone. -/
def Thread.run : Thread L V α → Memory L V → α × Memory L V
  | done a, m => (a, m)
  | read l k, m => (k (m.val l)).run m
  | write l v k, m => k.run (m.write l v)

namespace Thread

@[simp] theorem run_get (l : L) (m : Memory L V) : (get l).run m = (m.val l, m) := rfl

@[simp] theorem run_put (l : L) (v : V) (m : Memory L V) : (put l v).run m = ((), m.write l v) :=
  rfl

@[simp] theorem run_bind (t : Thread L V α) (f : α → Thread L V β) (m : Memory L V) :
    (t >>= f).run m = (f (t.run m).1).run (t.run m).2 := by
  induction t generalizing m with
  | done a => rfl
  | read l k ih => exact ih (m.val l) m
  | write l v k ih => exact ih (m.write l v)

/-- A loop of a program that changes its own state, and a loop of a thread: when the rounds keep
state and memory related, so do the loops. -/
theorem ends_forRange_run {σ : Type} {P : σ → Memory L V → Prop} {lo hi : ℕ} {s : σ}
    {body : ℕ → σ → Prog σ} {t : ℕ → Thread L V Unit} {m : Memory L V} (h0 : P s m)
    (hbody : ∀ i s m, lo ≤ i → i < hi → P s m →
      Ends (body i s) fun s' => P s' ((t i).run m).2) :
    Ends (forRange lo hi s body) fun s' => P s' ((forRange lo hi () fun i _ => t i).run m).2 := by
  unfold forRange
  generalize hcount : hi - lo = count
  induction count generalizing lo s m with
  | zero => exact ends_pure h0
  | succ count ih =>
    refine (hbody lo s m le_rfl (by omega) h0).bind fun s' hs' => ?_
    rw [forCount, run_bind]
    exact ih hs' (fun i s m hlo => hbody i s m (by omega)) (by omega)

/-- A run counts the writes. -/
theorem Writes.count {ls : List L} {t : Thread L V α} (h : t.Writes ls) (m : Memory L V) (l : L) :
    (t.run m).2.writes l = m.writes l + ls.count l := by
  induction t generalizing ls m with
  | done a =>
    obtain rfl : ls = [] := h
    rfl
  | read l' k ih => exact ih (m.val l') (h (m.val l')) m
  | write l' v k ih =>
    obtain ⟨ls', rfl, hk⟩ := h
    refine (ih hk (m.write l' v)).trans ?_
    rw [m.writes_write, List.count_cons]
    simp only [beq_iff_eq]
    ring

section Run

variable {S W : Set L} {t : Thread L V α} {l : L}

/-- A run leaves alone what is outside its footprint. -/
theorem Within.frame (h : t.Within S W) (m : Memory L V) (hl : l ∉ W) :
    (t.run m).2.val l = m.val l := by
  induction t generalizing m with
  | done a => rfl
  | read l' k ih => exact ih (m.val l') (h.2 _) m
  | write l' v k ih =>
    have hne : l ≠ l' := fun heq => hl (heq ▸ h.1)
    exact (ih h.2 (m.write l' v)).trans (m.val_write_ne v hne)

/-- A run does not see a write outside its footprint. -/
theorem Within.run_write (h : t.Within S W) (m : Memory L V) (hS : l ∉ S) (hW : l ∉ W) (v : V) :
    t.run (m.write l v) = ((t.run m).1, (t.run m).2.write l v) := by
  induction t generalizing m with
  | done a => rfl
  | read l' k ih =>
    have hne : l' ≠ l := fun heq => hS (heq ▸ h.1)
    change (k ((m.write l v).val l')).run (m.write l v) = _
    rw [m.val_write_ne v hne]
    exact ih (m.val l') (h.2 _) m
  | write l' v' k ih =>
    have hne : l ≠ l' := fun heq => hW (heq ▸ h.1)
    change k.run ((m.write l v).write l' v') = _
    rw [m.write_comm v v' hne]
    exact ih h.2 (m.write l' v')

end Run

end Thread

/-! ### Interleavings -/

/-- Threads and the memory they share. -/
structure Pool (L V : Type) where
  /-- What is left of each thread. -/
  thread : ℕ → Thread L V Unit
  /-- The memory. -/
  mem : Memory L V

/-- One access of one of the first `n` threads. -/
inductive Step (n : ℕ) : Pool L V → Pool L V → Prop
  | read {p : Pool L V} {i : ℕ} {l : L} {k : V → Thread L V Unit} (hi : i < n)
      (h : p.thread i = .read l k) :
      Step n p ⟨Function.update p.thread i (k (p.mem.val l)), p.mem⟩
  | write {p : Pool L V} {i : ℕ} {l : L} {v : V} {k : Thread L V Unit} (hi : i < n)
      (h : p.thread i = .write l v k) :
      Step n p ⟨Function.update p.thread i k, p.mem.write l v⟩

/-- Any number of accesses, in any order. -/
abbrev Reaches (n : ℕ) : Pool L V → Pool L V → Prop := Relation.ReflTransGen (Step n)

/-- The first `n` threads are done. -/
def Pool.Finished (n : ℕ) (p : Pool L V) : Prop :=
  ∀ i, i < n → p.thread i = .done ()

/-- The memory after the first `n` threads have run one after the other. -/
def sequential (thread : ℕ → Thread L V Unit) (m : Memory L V) : ℕ → Memory L V
  | 0 => m
  | n + 1 => ((thread n).run (sequential thread m n)).2

/-- No thread writes what another one reads or writes. -/
structure Independent (n : ℕ) (thread : ℕ → Thread L V Unit) (S W : ℕ → Set L) : Prop where
  /-- Each thread has a footprint. -/
  within : ∀ i, i < n → (thread i).Within (S i) (W i)
  /-- The writes of a thread are apart from the footprints of the others. -/
  apart : ∀ i j, i < n → j < n → i ≠ j → ∀ l ∈ W i, l ∉ S j ∧ l ∉ W j

section Independent

variable {n : ℕ} {S W : ℕ → Set L} {thread : ℕ → Thread L V Unit} {p q : Pool L V}

omit [DecidableEq L] in
/-- Threads stay independent when one of them goes on within its footprint. -/
theorem Independent.update (hp : Independent n thread S W) {i : ℕ} {k : Thread L V Unit}
    (hk : k.Within (S i) (W i)) : Independent n (Function.update thread i k) S W := by
  refine ⟨fun j hj => ?_, hp.apart⟩
  by_cases hji : j = i
  · subst hji
    rwa [Function.update_self]
  · rw [Function.update_of_ne hji]
    exact hp.within j hj

theorem Step.independent (h : Step n p q) (hp : Independent n p.thread S W) :
    Independent n q.thread S W := by
  cases h with
  | @read i l k hi h =>
    have hin := hp.within i hi
    rw [h] at hin
    exact hp.update (hin.2 _)
  | @write i l v k hi h =>
    have hin := hp.within i hi
    rw [h] at hin
    exact hp.update hin.2

/-- What the threads before a thread leave alone. -/
theorem Independent.frame (hp : Independent n thread S W) {i m : ℕ} (hm : m ≤ i) (hi : i < n)
    (mem : Memory L V) {l : L} (hl : l ∈ S i) :
    (sequential thread mem m).val l = mem.val l := by
  induction m with
  | zero => rfl
  | succ m ih =>
    have hW : l ∉ W m := fun h => (hp.apart m i (by omega) hi (by omega) l h).1 hl
    exact ((hp.within m (by omega)).frame _ hW).trans (ih (by omega))

/-- A write of a thread moves past the threads before it. -/
theorem Independent.sequential_write (hp : Independent n thread S W) {i m : ℕ} (hm : m ≤ i)
    (hi : i < n) (mem : Memory L V) {l : L} (hl : l ∈ W i) (v : V) :
    sequential thread (mem.write l v) m = (sequential thread mem m).write l v := by
  induction m with
  | zero => rfl
  | succ m ih =>
    obtain ⟨hS, hW⟩ := hp.apart i m hi (by omega) (by omega) l hl
    rw [sequential, ih (by omega), (hp.within m (by omega)).run_write _ hS hW]
    rfl

/-- What happens up to thread `m` decides what happens up to thread `n`, for the same threads
in between. -/
theorem sequential_congr {thread' : ℕ → Thread L V Unit} {mem mem' : Memory L V} {m : ℕ}
    (hmn : m ≤ n) (h : ∀ j, m ≤ j → thread j = thread' j)
    (hm : sequential thread mem m = sequential thread' mem' m) :
    sequential thread mem n = sequential thread' mem' n := by
  induction n, hmn using Nat.le_induction with
  | base => exact hm
  | succ n hmn ih => rw [sequential, sequential, ih, h n hmn]

/-- The threads before `i` do not depend on what is left of thread `i`. -/
theorem sequential_update (i : ℕ) (k : Thread L V Unit) (mem : Memory L V) :
    sequential (Function.update thread i k) mem i = sequential thread mem i := by
  suffices h : ∀ m ≤ i, sequential (Function.update thread i k) mem m = sequential thread mem m from
    h i le_rfl
  intro m hm
  induction m with
  | zero => rfl
  | succ m ih =>
    rw [sequential, sequential, ih (by omega), Function.update_of_ne (by omega : m ≠ i)]

/-- Thread `i` may go on first if the threads before it yield the same then. -/
theorem sequential_advance {i : ℕ} {k : Thread L V Unit} {mem mem' : Memory L V} (hi : i < n)
    (h : (k.run (sequential thread mem' i)).2 = ((thread i).run (sequential thread mem i)).2) :
    sequential (Function.update thread i k) mem' n = sequential thread mem n := by
  refine sequential_congr (Nat.succ_le_of_lt hi)
    (fun j hj => Function.update_of_ne (by omega) _ _) ?_
  rw [sequential, sequential, sequential_update, Function.update_self, h]

/-- **An access is invisible** in what the threads yield one after the other. -/
theorem Step.sequential (h : Step n p q) (hp : Independent n p.thread S W) :
    SharedMemory.sequential q.thread q.mem n = SharedMemory.sequential p.thread p.mem n := by
  cases h with
  | @read i l k hi h =>
    -- the threads before `i` do not change what it reads
    refine sequential_advance hi ?_
    have hin := hp.within i hi
    rw [h] at hin ⊢
    rw [Thread.run, hp.frame le_rfl hi p.mem hin.1]
  | @write i l v k hi h =>
    -- and its write moves past them
    refine sequential_advance hi ?_
    have hin := hp.within i hi
    rw [h] at hin ⊢
    rw [Thread.run, hp.sequential_write le_rfl hi p.mem hin.1]

theorem sequential_finished {mem : Memory L V} {m : ℕ}
    (h : ∀ i, i < m → thread i = .done ()) : sequential thread mem m = mem := by
  induction m with
  | zero => rfl
  | succ m ih =>
    rw [sequential, ih fun i hi => h i (by omega), h m (Nat.lt_succ_self m)]
    rfl

/-- **Schedule independence.** An interleaving of independent threads that runs to the end
leaves the memory as running them one after the other does. -/
theorem interleaving_eq_sequential (hp : Independent n p.thread S W) (h : Reaches n p q)
    (hq : q.Finished n) : q.mem = sequential p.thread p.mem n := by
  induction h using Relation.ReflTransGen.head_induction_on with
  | refl => exact (sequential_finished hq).symm
  | head hstep _ ih => rw [ih (hstep.independent hp), hstep.sequential hp]

/-- Running the threads counts the writes of all of them. -/
theorem sequential_writes {ls : ℕ → List L} {m : ℕ} (h : ∀ i, i < m → (thread i).Writes (ls i))
    (mem : Memory L V) (l : L) :
    (sequential thread mem m).writes l = mem.writes l + ((List.range m).flatMap ls).count l := by
  induction m with
  | zero => rfl
  | succ m ih =>
    rw [sequential, (h m (Nat.lt_succ_self m)).count, ih fun i hi => h i (by omega),
      List.range_succ, List.flatMap_append, List.flatMap_singleton, List.count_append, add_assoc]

/-- A location that the threads write once in all is written once. -/
theorem sequential_writes_nodup {ls : ℕ → List L} {m : ℕ}
    (h : ∀ i, i < m → (thread i).Writes (ls i)) (hls : ((List.range m).flatMap ls).Nodup)
    (mem : Memory L V) (l : L) :
    (sequential thread mem m).writes l
      = mem.writes l + if l ∈ (List.range m).flatMap ls then 1 else 0 := by
  rw [sequential_writes h, hls.count]

end Independent

/-! ### Running the threads one after the other -/

/-- A thread can run to its end without interruption. -/
theorem reaches_run {n i : ℕ} (hi : i < n) (t : Thread L V Unit) (thread : ℕ → Thread L V Unit)
    (mem : Memory L V) (h : thread i = t) :
    Reaches n ⟨thread, mem⟩ ⟨Function.update thread i (.done ()), (t.run mem).2⟩ := by
  induction t generalizing thread mem with
  | done a =>
    rw [Function.update_eq_self_iff.mpr h.symm]
    exact .refl
  | read l k ih =>
    refine .head (.read hi h) ?_
    have hrest := ih (mem.val l) (Function.update thread i (k (mem.val l))) mem
      (Function.update_self ..)
    rwa [Function.update_idem] at hrest
  | write l v k ih =>
    refine .head (.write hi h) ?_
    have hrest := ih (Function.update thread i k) (mem.write l v) (Function.update_self ..)
    rwa [Function.update_idem] at hrest

/-- **Running the threads one after the other is an interleaving**, from wherever they are. -/
theorem reaches_sequential (n : ℕ) (p : Pool L V) :
    ∃ q : Pool L V, Reaches n p q ∧ q.Finished n ∧ q.mem = sequential p.thread p.mem n := by
  suffices h : ∀ m ≤ n, Reaches n p
      ⟨fun i => if i < m then .done () else p.thread i, sequential p.thread p.mem m⟩ from
    ⟨_, h n le_rfl, fun i hi => if_pos hi, rfl⟩
  intro m hm
  induction m with
  | zero => exact .refl
  | succ m ih =>
    refine (ih (by omega)).trans ?_
    -- thread `m` is still at its start, and finds the memory that the others left
    have hrun := reaches_run (by omega : m < n) (p.thread m)
      (fun i => if i < m then .done () else p.thread i) (sequential p.thread p.mem m)
      (if_neg (lt_irrefl m))
    have hthread : (fun i => if i < m + 1 then .done () else p.thread i)
        = Function.update (fun i => if i < m then .done () else p.thread i) m (.done ()) := by
      funext i
      by_cases hi : i = m
      · subst hi
        rw [Function.update_self, if_pos (Nat.lt_succ_self i)]
      · rw [Function.update_of_ne hi]
        exact if_congr (by omega) rfl rfl
    rwa [← hthread] at hrun

end SharedMemory
