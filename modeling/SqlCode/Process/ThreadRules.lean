import SqlCode.Process.SharedMemory

/-!
# Rules for threads that run alone

Three notions describe a thread of `SharedMemory` on its own, each with a rule for
sequencing and a rule for loops:

* `WithinTo S W Q` — whatever it reads, it stays within its footprint and yields a value
  in `Q`, so that an index it has computed is known to be in range;
* `Leaves t m Q` — run from `m`, it yields a value and leaves a memory in `Q`;
* `Touches t m l` — run from `m`, it reads or writes `l`.

For independent threads the memory after all of them is put together from what each
leaves when it runs first (`Independent.val_sequential`), and a loop without a state of
its own runs its rounds as threads one after the other (`run_forRange`). So a loop whose
rounds are independent is known from its rounds.
-/

namespace SharedMemory

open Exec

variable {L V α β σ : Type}

theorem Memory.val_write [DecidableEq L] (m : Memory L V) (l : L) (v : V) (l' : L) :
    (m.write l v).val l' = if l' = l then v else m.val l' := by
  split_ifs with h
  · rw [h, m.val_write_self]
  · exact m.val_write_ne v h

namespace Thread

theorem bind_done (t : Thread L V α) : (t >>= done) = t := by
  induction t with
  | done a => rfl
  | read l k ih => exact congrArg (read l) (funext ih)
  | write l v k ih => exact congrArg (write l v) ih

theorem bind_assoc' (t : Thread L V α) (f : α → Thread L V β) (g : β → Thread L V σ) :
    (t >>= f) >>= g = t >>= fun a => f a >>= g := by
  induction t with
  | done a => rfl
  | read l k ih => exact congrArg (read l) (funext ih)
  | write l v k ih => exact congrArg (write l v) ih

instance : LawfulMonad (Thread L V) := LawfulMonad.mk' _
  (fun t => bind_done t) (fun _ _ => rfl) bind_assoc'

/-! ### Footprints with a result -/

/-- The accesses are within the footprint, and the value is in `Q`, whatever the program
reads. -/
def WithinTo (S W : Set L) (Q : α → Prop) : Thread L V α → Prop
  | done a => Q a
  | read l k => l ∈ S ∧ ∀ v, WithinTo S W Q (k v)
  | write l _ k => l ∈ W ∧ WithinTo S W Q k

section WithinTo

variable {S W S' W' : Set L} {t : Thread L V α} {f : α → Thread L V β} {Q : α → Prop}
  {Q' : β → Prop}

theorem WithinTo.within (h : t.WithinTo S W Q) : t.Within S W := by
  induction t with
  | done a => trivial
  | read l k ih => exact ⟨h.1, fun v => ih v (h.2 v)⟩
  | write l v k ih => exact ⟨h.1, ih h.2⟩

theorem Within.mono (h : t.Within S W) (hS : S ⊆ S') (hW : W ⊆ W') : t.Within S' W' := by
  induction t with
  | done a => trivial
  | read l k ih => exact ⟨hS h.1, fun v => ih v (h.2 v)⟩
  | write l v k ih => exact ⟨hW h.1, ih h.2⟩

@[simp] theorem within_get_bind {l : L} {f : V → Thread L V β} :
    (get l >>= f).Within S W ↔ l ∈ S ∧ ∀ v, (f v).Within S W := Iff.rfl

@[simp] theorem within_put_bind {l : L} {v : V} {f : Unit → Thread L V β} :
    (put l v >>= f).Within S W ↔ l ∈ W ∧ (f ()).Within S W := Iff.rfl

@[simp] theorem within_put_iff {l : L} {v : V} : (put l v).Within S W ↔ l ∈ W :=
  ⟨And.left, fun h => ⟨h, trivial⟩⟩

theorem WithinTo.bind (ht : t.WithinTo S W Q) (hf : ∀ a, Q a → (f a).WithinTo S W Q') :
    (t >>= f).WithinTo S W Q' := by
  induction t with
  | done a => exact hf a ht
  | read l k ih => exact ⟨ht.1, fun v => ih v (ht.2 v)⟩
  | write l v k ih => exact ⟨ht.1, ih ht.2⟩

/-- The invariant rule: the invariant is about the state of the loop alone. -/
theorem withinTo_forRange {lo hi : ℕ} {s : σ} {body : ℕ → σ → Thread L V σ} (hle : lo ≤ hi)
    (Inv : ℕ → σ → Prop) (h0 : Inv lo s)
    (hbody : ∀ i s, lo ≤ i → i < hi → Inv i s → (body i s).WithinTo S W (Inv (i + 1))) :
    (forRange lo hi s body).WithinTo S W (Inv hi) := by
  unfold forRange
  obtain ⟨count, rfl⟩ := Nat.exists_eq_add_of_le hle
  rw [Nat.add_sub_cancel_left]
  clear hle
  induction count generalizing lo s with
  | zero => exact h0
  | succ count ih =>
    rw [show lo + (count + 1) = lo + 1 + count by omega] at *
    refine (hbody lo s le_rfl (by omega) h0).bind fun s' hs' => ?_
    exact ih hs' fun i s hlo hhi => hbody i s (by omega) (by omega)

/-- A loop without a state of its own stays within what contains its rounds. -/
theorem within_forRange {lo hi : ℕ} {t : ℕ → Thread L V Unit}
    (h : ∀ i, lo ≤ i → i < hi → (t i).Within S W) :
    (forRange lo hi () fun i _ => t i).Within S W :=
  within_forCount fun i _ hi => h (lo + i * 1) (by omega) (by omega)

end WithinTo

/-! ### What a run leaves -/

variable [DecidableEq L]

/-- Run from `m`, the program yields a value and leaves a memory in `Q`. -/
def Leaves (t : Thread L V α) (m : Memory L V) (Q : α → Memory L V → Prop) : Prop :=
  Q (t.run m).1 (t.run m).2

section Leaves

variable {t : Thread L V α} {f : α → Thread L V β} {m : Memory L V}
  {P Q : α → Memory L V → Prop} {Q' : β → Memory L V → Prop}

theorem leaves_pure {a : α} (h : Q a m) : (pure a : Thread L V α).Leaves m Q := h

@[simp] theorem leaves_get_bind {l : L} {f : V → Thread L V β} :
    (get l >>= f).Leaves m Q' ↔ (f (m.val l)).Leaves m Q' := Iff.rfl

@[simp] theorem leaves_put_bind {l : L} {v : V} {f : Unit → Thread L V β} :
    (put l v >>= f).Leaves m Q' ↔ (f ()).Leaves (m.write l v) Q' := Iff.rfl

theorem Leaves.bind (ht : t.Leaves m P) (hf : ∀ a m', P a m' → (f a).Leaves m' Q') :
    (t >>= f).Leaves m Q' := by
  unfold Leaves
  rw [run_bind]
  exact hf _ _ ht

theorem Leaves.mono (ht : t.Leaves m P) (h : ∀ a m', P a m' → Q a m') : t.Leaves m Q :=
  h _ _ ht

/-- The invariant rule. -/
theorem leaves_forRange {lo hi : ℕ} {s : σ} {body : ℕ → σ → Thread L V σ} (hle : lo ≤ hi)
    (Inv : ℕ → σ → Memory L V → Prop) (h0 : Inv lo s m)
    (hbody : ∀ i s m, lo ≤ i → i < hi → Inv i s m → (body i s).Leaves m (Inv (i + 1))) :
    (forRange lo hi s body).Leaves m (Inv hi) := by
  unfold forRange
  obtain ⟨count, rfl⟩ := Nat.exists_eq_add_of_le hle
  rw [Nat.add_sub_cancel_left]
  clear hle
  induction count generalizing lo s m with
  | zero => exact h0
  | succ count ih =>
    rw [show lo + (count + 1) = lo + 1 + count by omega] at *
    refine (hbody lo s m le_rfl (by omega) h0).bind fun s' m' hs' => ?_
    exact ih hs' fun i s m hlo hhi => hbody i s m (by omega) (by omega)

end Leaves

/-- **A loop without a state of its own** runs its rounds one after the other. -/
theorem run_forRange (t : ℕ → Thread L V Unit) (n : ℕ) (m : Memory L V) :
    ((forRange 0 n () fun i _ => t i).run m).2 = sequential t m n := by
  unfold forRange
  rw [Nat.sub_zero]
  induction n with
  | zero => rfl
  | succ n ih =>
    rw [forCount_add, run_bind, ih, zero_add, mul_one, forCount, run_bind]
    rfl

/-- A run only depends on the footprint. -/
theorem Within.run_congr {S W : Set L} {t : Thread L V α} (h : t.Within S W) {m m' : Memory L V}
    (hm : ∀ l, l ∈ S ∨ l ∈ W → m.val l = m'.val l) :
    (t.run m).1 = (t.run m').1 ∧ ∀ l ∈ W, (t.run m).2.val l = (t.run m').2.val l := by
  induction t generalizing m m' with
  | done a => exact ⟨rfl, fun l hl => hm l (.inr hl)⟩
  | read l k ih =>
    simp only [run, hm l (.inl h.1)]
    exact ih _ (h.2 _) hm
  | write l v k ih =>
    refine ih h.2 fun l' hl' => ?_
    by_cases heq : l' = l
    · rw [heq, m.val_write_self, m'.val_write_self]
    · rw [m.val_write_ne v heq, m'.val_write_ne v heq, hm l' hl']

/-! ### What a run accesses -/

/-- Run from `m`, the program reads or writes `l`. -/
def Touches : Thread L V α → Memory L V → L → Prop
  | done _, _, _ => False
  | read l' k, m, l => l' = l ∨ Touches (k (m.val l')) m l
  | write l' v k, m, l => l' = l ∨ Touches k (m.write l' v) l

section Touches

variable {t : Thread L V α} {f : α → Thread L V β} {m : Memory L V} {l : L}

/-- A program within a footprint touches nothing else. -/
theorem Within.touches {S W : Set L} (h : t.Within S W) (ht : t.Touches m l) : l ∈ S ∨ l ∈ W := by
  induction t generalizing m with
  | done a => exact ht.elim
  | read l' k ih =>
    obtain rfl | ht := ht
    · exact .inl h.1
    · exact ih _ (h.2 _) ht
  | write l' v k ih =>
    obtain rfl | ht := ht
    · exact .inr h.1
    · exact ih h.2 ht

theorem touches_get (l : L) (m : Memory L V) : (get l : Thread L V V).Touches m l := .inl rfl

theorem Touches.bind_left (h : t.Touches m l) : (t >>= f).Touches m l := by
  induction t generalizing m with
  | done a => exact h.elim
  | read l' k ih => exact h.imp id (ih _)
  | write l' v k ih => exact h.imp id ih

theorem Touches.bind_right (h : (f (t.run m).1).Touches (t.run m).2 l) :
    (t >>= f).Touches m l := by
  induction t generalizing m with
  | done a => exact h
  | read l' k ih => exact .inr (ih _ h)
  | write l' v k ih => exact .inr (ih h)

/-- A loop touches what one of its rounds touches, from wherever the rounds before lead. -/
theorem touches_forRange {lo hi k : ℕ} {s : σ} {body : ℕ → σ → Thread L V σ} (hlo : lo ≤ k)
    (hk : k < hi) (Inv : ℕ → σ → Memory L V → Prop) (h0 : Inv lo s m)
    (hbody : ∀ i s m, lo ≤ i → i < k → Inv i s m → (body i s).Leaves m (Inv (i + 1)))
    (htouch : ∀ s m, Inv k s m → (body k s).Touches m l) :
    (forRange lo hi s body).Touches m l := by
  have hI := leaves_forRange hlo Inv h0 hbody
  obtain ⟨c, hc⟩ : ∃ c, hi - k = c + 1 := ⟨hi - k - 1, by omega⟩
  have hsplit : forRange lo hi s body =
      forRange lo k s body >>= fun s => body k s >>= fun s => forCount (k + 1) 1 c s body := by
    unfold forRange
    rw [show hi - lo = (k - lo) + (c + 1) by omega, forCount_add,
      show lo + (k - lo) * 1 = k by omega]
    rfl
  rw [hsplit]
  exact (htouch _ _ hI).bind_left.bind_right

end Touches

end Thread

/-! ### Independent rounds -/

section Independent

variable [DecidableEq L] {n : ℕ} {S W : ℕ → Set L} {thread : ℕ → Thread L V Unit}

/-- Threads find their footprint as it was, whatever threads ran before them. -/
theorem Independent.val_before (hp : Independent n thread S W) {i : ℕ} (hi : i < n)
    (mem : Memory L V) {l : L} (hl : l ∈ S i ∨ l ∈ W i) :
    (sequential thread mem i).val l = mem.val l := by
  suffices h : ∀ m ≤ i, (sequential thread mem m).val l = mem.val l from h i le_rfl
  intro m hm
  induction m with
  | zero => rfl
  | succ m ih =>
    refine ((hp.within m (by omega)).frame _ fun hW => ?_).trans (ih (by omega))
    obtain ⟨hS', hW'⟩ := hp.apart m i (by omega) hi (by omega) l hW
    exact hl.elim hS' hW'

/-- **Each thread leaves what it leaves when it runs first.** -/
theorem Independent.val_sequential (hp : Independent n thread S W) {i : ℕ} (hi : i < n)
    (mem : Memory L V) {l : L} (hl : l ∈ W i) :
    (sequential thread mem n).val l = ((thread i).run mem).2.val l := by
  have hself : (sequential thread mem (i + 1)).val l = ((thread i).run mem).2.val l :=
    ((hp.within i hi).run_congr fun l' hl' => hp.val_before hi mem hl').2 l hl
  -- the threads after it do not write its locations
  suffices h : ∀ m, i + 1 ≤ m → m ≤ n →
      (sequential thread mem m).val l = ((thread i).run mem).2.val l from h n hi le_rfl
  intro m him
  induction m, him using Nat.le_induction with
  | base => exact fun _ => hself
  | succ m him ih =>
    intro hm
    have hne : i ≠ m := by omega
    exact ((hp.within m hm).frame _ (hp.apart i m hi hm hne l hl).2).trans (ih (by omega))

/-- What no thread writes stays as it was. -/
theorem Independent.val_frame (hp : Independent n thread S W) (mem : Memory L V) {l : L}
    (hl : ∀ i, i < n → l ∉ W i) : (sequential thread mem n).val l = mem.val l := by
  suffices h : ∀ m ≤ n, (sequential thread mem m).val l = mem.val l from h n le_rfl
  intro m hm
  induction m with
  | zero => rfl
  | succ m ih => exact ((hp.within m hm).frame _ (hl m hm)).trans (ih (by omega))

end Independent

end SharedMemory
