import Dime.Foundation.Heap

/-!
# Reference counts

Objects on a heap that count how often they are held. Who holds an object is told
by a function alone; the rules say how the counts follow it when an object is
made, retained and released.
-/

universe u

namespace Heap

/-- Every object counts its holders, and is freed when there are none. Only the
object `new` may be live without a holder. -/
structure Counted {α : Type u} (count : α → Nat) (held : Nat → Nat) (new : Option Nat)
    (h : Heap α) : Prop where
  count_eq : ∀ p a, h.cells p = some a → count a = held p
  pos : ∀ p a, h.cells p = some a → some p ≠ new → 0 < held p
  freed : ∀ p, h.cells p = none → held p = 0

namespace Counted

variable {α : Type u} {count : α → Nat} {held : Nat → Nat} {new : Option Nat} {h : Heap α}
  {p : Nat} {a b : α}

theorem empty : Counted count (fun _ => 0) none (Heap.empty : Heap α) :=
  ⟨nofun, nofun, fun _ _ => rfl⟩

/-- What is held is live. -/
theorem live (hc : Counted count held new h) (hp : 0 < held p) : ∃ a, h.cells p = some a := by
  cases hcell : h.cells p with
  | some a => exact ⟨a, rfl⟩
  | none =>
      have := hc.freed p hcell
      omega

/-- With no new object, an object is live exactly as long as it is held. -/
theorem live_iff (hc : Counted count held none h) : (∃ a, h.cells p = some a) ↔ 0 < held p :=
  ⟨fun ⟨a, ha⟩ => hc.pos p a ha nofun, hc.live⟩

theorem alloc (hc : Counted count held none h) (ha : count a = 0) :
    Counted count held (some h.next) (h.alloc a) := by
  refine ⟨fun p b hp => ?_, fun p b hp hne => ?_, fun p hp => ?_⟩ <;>
    rcases eq_or_ne p h.next with rfl | hnext
  · rw [cells_alloc_self] at hp
    cases hp
    rw [ha, hc.freed h.next (h.fresh _ le_rfl)]
  · exact hc.count_eq p b ((cells_alloc_of_ne hnext).symm.trans hp)
  · exact absurd rfl hne
  · exact hc.pos p b ((cells_alloc_of_ne hnext).symm.trans hp) nofun
  · rw [cells_alloc_self] at hp
    cases hp
  · exact hc.freed p ((cells_alloc_of_ne hnext).symm.trans hp)

/-- An object that is now held `n` times counts `n`. -/
theorem write (hc : Counted count held new h) (hp : h.cells p = some a) {n : Nat}
    (hcount : count b = n) (hpos : some p ≠ new → 0 < n) :
    Counted count (Function.update held p n) new (h.write p b) := by
  refine ⟨fun q c hq => ?_, fun q c hq hne => ?_, fun q hq => ?_⟩ <;>
    rcases eq_or_ne q p with rfl | hqp
  · rw [cells_write_self hp] at hq
    cases hq
    rw [Function.update_self, hcount]
  · rw [Function.update_of_ne hqp]
    exact hc.count_eq q c ((cells_write_of_ne hqp).symm.trans hq)
  · rw [Function.update_self]
    exact hpos hne
  · rw [Function.update_of_ne hqp]
    exact hc.pos q c ((cells_write_of_ne hqp).symm.trans hq) hne
  · rw [cells_write_self hp] at hq
    cases hq
  · rw [Function.update_of_ne hqp]
    exact hc.freed q ((cells_write_of_ne hqp).symm.trans hq)

/-- One more holder. -/
theorem retain (hc : Counted count held new h) (hp : h.cells p = some a)
    (hcount : count b = count a + 1) :
    Counted count (Function.update held p (held p + 1)) new (h.write p b) :=
  hc.write hp (by rw [hcount, hc.count_eq p a hp]) fun _ => Nat.succ_pos _

/-- One holder less, with holders left. -/
theorem release (hc : Counted count held new h) (hp : h.cells p = some a)
    (hcount : count b = count a - 1) (hpos : 0 < count b) :
    Counted count (Function.update held p (held p - 1)) new (h.write p b) := by
  have hheld := hc.count_eq p a hp
  exact hc.write hp (by omega) fun _ => by omega

/-- No holder is left. -/
theorem free (hc : Counted count held new h) :
    Counted count (Function.update held p 0) new (h.free p) := by
  refine ⟨fun q c hq => ?_, fun q c hq hne => ?_, fun q hq => ?_⟩ <;>
    rcases eq_or_ne q p with rfl | hqp
  · rw [cells_free_self] at hq
    cases hq
  · rw [Function.update_of_ne hqp]
    exact hc.count_eq q c ((cells_free_of_ne hqp).symm.trans hq)
  · rw [cells_free_self] at hq
    cases hq
  · rw [Function.update_of_ne hqp]
    exact hc.pos q c ((cells_free_of_ne hqp).symm.trans hq) hne
  · exact Function.update_self ..
  · rw [Function.update_of_ne hqp]
    exact hc.freed q ((cells_free_of_ne hqp).symm.trans hq)

/-- The new object is held. -/
theorem settle (hc : Counted count held (some p) h) (hp : 0 < held p) :
    Counted count held none h := by
  refine ⟨hc.count_eq, fun q a hq _ => ?_, hc.freed⟩
  rcases eq_or_ne q p with rfl | hne
  · exact hp
  · exact hc.pos q a hq fun heq => hne (Option.some.inj heq)

/-- The new object is held by nobody and freed again. -/
theorem discard (hc : Counted count held (some p) h) (hp : held p = 0) :
    Counted count held none (h.free p) := by
  have hfree := hc.free (p := p)
  rw [← hp, Function.update_eq_self] at hfree
  refine ⟨hfree.count_eq, fun q a hq _ => ?_, hfree.freed⟩
  refine hfree.pos q a hq fun heq => ?_
  cases heq
  rw [cells_free_self] at hq
  cases hq

end Counted

end Heap
