import Sequitur.ObjectPool

namespace Sequitur.SlotStack

open ObjectPool

/-- The stack of a pool of `n` objects and the slots handed out from it are
the numbers below `n`, each of them once. -/
structure Tracks (n : Nat) (p : ObjectPool) (live : List Nat) : Prop where
  fits : n ≤ 2 ^ 32
  capacity : p.capacity = n
  top : -1 ≤ p.top
  partition : (p.freeSlots ++ live).Perm (List.range n)
  used : p.usedCount = UInt64.ofNat live.length

theorem freeSlots_length (p : ObjectPool) : p.freeSlots.length = (p.top + 1).toNat := by
  simp [freeSlots]

variable {n : Nat} {p : ObjectPool} {live : List Nat}

theorem Tracks.nodup (h : Tracks n p live) : (p.freeSlots ++ live).Nodup :=
  h.partition.nodup_iff.mpr List.nodup_range

theorem Tracks.lt (h : Tracks n p live) {s : Nat} (hs : s ∈ live) : s < n :=
  List.mem_range.mp (h.partition.mem_iff.mp (List.mem_append_right _ hs))

theorem Tracks.length (h : Tracks n p live) : (p.top + 1).toNat + live.length = n := by
  have hl := h.partition.length_eq
  rwa [List.length_append, freeSlots_length, List.length_range] at hl

theorem Tracks.exhausted_iff (h : Tracks n p live) : p.top < 0 ↔ live.length = n := by
  have := h.length
  have := h.top
  omega

theorem Tracks.perm (h : Tracks n p live) {live' : List Nat} (hl : live.Perm live') :
    Tracks n p live' :=
  ⟨h.fits, h.capacity, h.top, (hl.append_left p.freeSlots).symm.trans h.partition,
    hl.length_eq ▸ h.used⟩

theorem init_tracks (hn : n ≤ 2 ^ 32) : Tracks n (.init n) [] := by
  refine ⟨hn, rfl, ?_, ?_, rfl⟩
  · simp only [init]; omega
  · have hf : (ObjectPool.init n).freeSlots = List.range n := by
      have ht : ((ObjectPool.init n).top + 1).toNat = n := by simp [init]
      rw [freeSlots, ht]
      refine (List.map_congr_left fun i hi => ?_).trans (List.map_id _)
      have hi := List.mem_range.mp hi
      exact UInt32.toNat_ofNat_of_lt' (by simp only [UInt32.size]; omega)
    rw [hf, List.append_nil]

theorem acquire_tracks (h : Tracks n p live) (hl : live.length < n) :
    ∃ p' s, p.acquire = (p', some s) ∧ Tracks n p' (s :: live) := by
  have hlen := h.length
  have htop : ¬ p.top < 0 := by rw [h.exhausted_iff]; omega
  refine ⟨_, _, if_neg htop, h.fits, h.capacity, ?_, ?_, ?_⟩
  · simp only; omega
  · have hs : p.freeSlots = (List.range p.top.toNat).map (fun i => (p.freeIndices i).toNat) ++
        [(p.freeIndices p.top.toNat).toNat] := by
      have ht : (p.top + 1).toNat = p.top.toNat + 1 := by omega
      rw [freeSlots, ht, List.range_succ, List.map_append]
      rfl
    have hp := h.partition
    rw [hs, List.append_assoc] at hp
    simpa only [freeSlots, Int.sub_add_cancel, List.singleton_append] using hp
  · simp only [h.used, List.length_cons]
    exact (UInt64.ofNat_add _ _).symm

theorem acquire_exhausted (h : Tracks n p live) (hl : live.length = n) :
    p.acquire = ({ p with allocFailures := p.allocFailures + 1 }, none) ∧
      Tracks n { p with allocFailures := p.allocFailures + 1 } live :=
  ⟨by rw [acquire, if_pos (h.exhausted_iff.mpr hl)], h.fits, h.capacity, h.top, h.partition, h.used⟩

theorem acquire_fresh (h : Tracks n p live) {s : Nat} (hs : p.acquire.2 = some s) : s ∉ live := by
  by_cases hl : live.length = n
  · rw [(acquire_exhausted h hl).1] at hs
    simp at hs
  · obtain ⟨p', s', ha, ht⟩ := acquire_tracks h (by have := h.length; omega)
    rw [ha] at hs
    obtain rfl := Option.some.inj hs
    exact (List.nodup_cons.mp ht.nodup.of_append_right).1

theorem release_tracks {s : Nat} (h : Tracks n p (s :: live)) : Tracks n (p.release (some s)) live := by
  have hs := h.lt List.mem_cons_self
  have hfits := h.fits
  have htop := h.top
  refine ⟨hfits, h.capacity, ?_, ?_, ?_⟩
  · simp only [release]; omega
  · have hf : (p.release (some s)).freeSlots = p.freeSlots ++ [s] := by
      have ht : (p.top + 1 + 1).toNat = (p.top + 1).toNat + 1 := by omega
      simp only [freeSlots, release, ht, List.range_succ, List.map_append, List.map_singleton]
      congr 1
      · refine List.map_congr_left fun i hi => ?_
        rw [Function.update_of_ne (Nat.ne_of_lt (List.mem_range.mp hi))]
      · rw [Function.update_self, UInt32.toNat_ofNat_of_lt' (by simp only [UInt32.size]; omega)]
    rw [hf, List.append_assoc]
    exact h.partition
  · simp only [release, h.used, List.length_cons, UInt64.ofNat_add]
    exact UInt64.add_sub_cancel _ _

theorem releaseAll_tracks (dead : List Nat) (h : Tracks n p (dead ++ live)) :
    Tracks n (dead.foldl (fun p s => p.release (some s)) p) live := by
  induction dead generalizing p with
  | nil => exact h
  | cons s dead ih => exact ih (release_tracks h)

end Sequitur.SlotStack
