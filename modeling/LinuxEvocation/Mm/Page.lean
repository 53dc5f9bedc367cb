import Mathlib.Tactic

/-!
# Pages and addresses

The constants of the machine's paging that the modules of memory management share: pages are
of 4096 bytes, and the page an address lies in is the address with its low bits cleared.
-/

namespace LinuxEvocation.Mm

def pageSize : Nat := 4096

/-- `PTRS_PER_PAGE`. -/
def ptrsPerPage : Nat := 1024

def taskSize : Nat := 0xc0000000

/-- `PAGE_PRESENT` is set. -/
def present (word : Nat) : Bool := word % 2 = 1

/-- `MAP_NR(addr)`. -/
def mapNr (addr : Nat) : Nat := addr / pageSize

/-- `addr & PAGE_MASK`. -/
def pageMask (addr : Nat) : Nat := addr / pageSize * pageSize

/-- `PAGE_ALIGN(addr)`. -/
def pageAlign (addr : Nat) : Nat := pageMask (addr + pageSize - 1)

@[simp]
theorem mapNr_mul (nr : Nat) : mapNr (nr * pageSize) = nr := by
  simp [mapNr, pageSize]

theorem pageMask_eq_mul (addr : Nat) : pageMask addr = mapNr addr * pageSize := rfl

@[simp]
theorem mapNr_pageMask (addr : Nat) : mapNr (pageMask addr) = mapNr addr := by
  rw [pageMask_eq_mul, mapNr_mul]

/-- A page is named by its number or by its address. -/
theorem pageMask_eq_self {addr : Nat} (h : addr % pageSize = 0) : pageMask addr = addr :=
  Nat.div_mul_cancel (Nat.dvd_of_mod_eq_zero h)

theorem pageMask_mod (addr : Nat) : pageMask addr % pageSize = 0 := by
  simp [pageMask]

theorem mapNr_inj {a b : Nat} (ha : a % pageSize = 0) (hb : b % pageSize = 0)
    (h : mapNr a = mapNr b) : a = b := by
  rw [← pageMask_eq_self ha, ← pageMask_eq_self hb, pageMask_eq_mul, pageMask_eq_mul, h]

theorem mapNr_lt {a n : Nat} (hn : n % pageSize = 0) (h : a < n) : mapNr a < mapNr n := by
  unfold mapNr pageSize at *
  omega

end LinuxEvocation.Mm
