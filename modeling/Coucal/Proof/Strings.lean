import Mathlib.Algebra.BigOperators.Group.Multiset.Basic
import Coucal.Construction.Pool
import Coucal.Library.Bytes

namespace Coucal

open Bytes

variable {P : Platform} {κ : Type}

theorem CString.ext_chars {a b : CString} (same : a.chars = b.chars) : a = b := by
  cases a
  cases b
  cases same
  rfl

@[simp] theorem CString.terminated_length (text : CString) :
    text.terminated.length = text.strlen + 1 := by
  simp [terminated, strlen]

/-- A read stops at the terminator. -/
theorem CString.read_of_prefix {bytes : List UInt8} {text : CString}
    (stored : text.terminated <+: bytes) : CString.read bytes = text := by
  obtain ⟨rest, rfl⟩ := stored
  apply CString.ext_chars
  have nonzero : ∀ byte ∈ text.chars, (decide (byte ≠ 0)) = true := by
    intro byte member
    have apart : byte ≠ 0 := by
      rintro rfl
      exact text.noNul member
    exact decide_eq_true apart
  simp only [CString.read, CString.terminated, List.append_assoc]
  rw [List.takeWhile_append_of_pos nonzero]
  simp

/-- The bytes that a string takes in the pool. The empty string takes none. -/
def CString.footprint (text : CString) : Nat := if text.chars = [] then 0 else text.strlen + 1

theorem CString.footprint_of_nonempty {text : CString} (nonempty : text.chars ≠ []) :
    text.footprint = text.strlen + 1 := if_neg nonempty

/-- The bytes that a key takes in the pool. -/
def Key.footprint : Key κ → Nat
  | .string text => text.footprint
  | .object _ => 0

/-- A name in the pool designates a string: the shared empty string, or a nonempty string whose bytes
lie below the watermark. -/
inductive Pool.Stored (pool : Pool) : Name κ → CString → Prop where
  | emptyString : Stored pool .emptyString CString.empty
  | pooled {address : Nat} {text : CString} (based : pool.buffer ≤ address)
      (nonempty : text.chars ≠ []) (holds : Holds pool.bytes (address - pool.buffer) text.terminated)
      (fits : address - pool.buffer + (text.strlen + 1) ≤ pool.size) :
      Stored pool (.pooled address) text

/-- The bytes of a name. -/
def Pool.region (pool : Pool) : Name κ → Region
  | .pooled address => (address - pool.buffer, (pool.stringAt address).strlen + 1)
  | _ => (0, 0)

namespace Pool.Stored

variable {pool pool' : Pool} {name : Name κ} {text : CString}

theorem key_eq (stored : pool.Stored name text) : pool.key name = .string text := by
  cases stored with
  | emptyString => rfl
  | pooled _ _ holds _ => exact congrArg Key.string (CString.read_of_prefix holds.isPrefix)

theorem stringAt_eq {address : Nat} (stored : pool.Stored (.pooled address : Name κ) text) :
    pool.stringAt address = text := by
  have key := stored.key_eq
  simp only [Pool.key, Key.string.injEq] at key
  exact key

theorem region_length (stored : pool.Stored name text) :
    (pool.region name).2 = text.footprint := by
  cases stored with
  | emptyString => rfl
  | pooled based nonempty holds fits =>
      rw [CString.footprint_of_nonempty nonempty, Pool.region,
        stringAt_eq (κ := κ) (.pooled based nonempty holds fits)]

theorem region_le (stored : pool.Stored name text) :
    (pool.region name).1 + (pool.region name).2 ≤ pool.size := by
  rw [stored.region_length]
  cases stored with
  | emptyString => exact Nat.zero_le _
  | pooled _ nonempty _ fits =>
      rw [CString.footprint_of_nonempty nonempty]
      exact fits

/-- A name keeps its string while its bytes stay. -/
theorem keep (stored : pool.Stored name text) (base : pool'.buffer = pool.buffer)
    (size : pool.size ≤ pool'.size)
    (same : ∀ i, Covers i (pool.region name) → pool'.bytes[i]? = pool.bytes[i]?) :
    pool'.Stored name text := by
  have length := stored.region_length
  cases stored with
  | emptyString => exact .emptyString
  | pooled based nonempty holds fits =>
      refine .pooled (base ▸ based) nonempty ?_ (base ▸ fits.trans size)
      rw [base]
      refine holds.congr fun i above below => same i ⟨above, ?_⟩
      rw [length, CString.footprint_of_nonempty nonempty]
      rw [CString.terminated_length] at below
      exact below

/-- A string determines the region of its name in a buffer. -/
theorem region_eq (stored : pool.Stored name text) (stored' : pool'.Stored name text)
    (base : pool'.buffer = pool.buffer) : pool'.region name = pool.region name := by
  cases stored with
  | emptyString => rfl
  | pooled based nonempty holds fits =>
      simp only [Pool.region, base, stringAt_eq stored',
        stringAt_eq (κ := κ) (.pooled based nonempty holds fits)]

end Pool.Stored

/-- The layout of a pool: each name is stored, and no byte belongs to two names. -/
structure Pool.Layout (pool : Pool) (names : Multiset (Name κ)) : Prop where
  length_eq : pool.bytes.length = pool.capacity
  size_le : pool.size ≤ pool.capacity
  stored : ∀ name ∈ names, ∃ text, pool.Stored name text
  apart : Apart (names.map pool.region)

/-- The bytes that some names take in the pool. -/
def Pool.footprint (pool : Pool) (names : Multiset (Name κ)) : Nat :=
  (names.map fun name => (pool.key name).footprint).sum

@[simp] theorem Pool.footprint_zero (pool : Pool) : pool.footprint (0 : Multiset (Name κ)) = 0 := by
  simp [Pool.footprint]

@[simp] theorem Pool.footprint_cons (pool : Pool) (name : Name κ) (names : Multiset (Name κ)) :
    pool.footprint (name ::ₘ names) = (pool.key name).footprint + pool.footprint names := by
  simp [Pool.footprint]

@[simp] theorem Pool.footprint_add (pool : Pool) (names names' : Multiset (Name κ)) :
    pool.footprint (names + names') = pool.footprint names + pool.footprint names' := by
  simp [Pool.footprint]

theorem Pool.footprint_mono (pool : Pool) {names names' : Multiset (Name κ)} (fewer : names ≤ names') :
    pool.footprint names ≤ pool.footprint names' := by
  obtain ⟨rest, rfl⟩ := Multiset.le_iff_exists_add.mp fewer
  rw [Pool.footprint_add]
  exact Nat.le_add_right _ _

/-- The counter of used bytes takes no part in the layout. -/
theorem Pool.Layout.setUsed {pool : Pool} {names : Multiset (Name κ)} (layout : pool.Layout names)
    (used : Nat) : ({ pool with used } : Pool).Layout names where
  length_eq := layout.length_eq
  size_le := layout.size_le
  stored name member := by
    obtain ⟨text, held⟩ := layout.stored name member
    exact ⟨text, held.keep rfl (Nat.le_refl _) fun _ _ => rfl⟩
  apart := layout.apart

/-- The pool counts the bytes of its names below the watermark. -/
structure Pool.Ok (pool : Pool) (names : Multiset (Name κ)) : Prop extends pool.Layout names where
  based : pool.buffer = 0 → pool.capacity = 0
  used_eq : pool.used = pool.footprint names
  used_le : pool.used ≤ pool.size

/-- The pool after a string was written at the watermark. -/
def Pool.append (pool : Pool) (bytes : List UInt8) (text : CString) : Pool :=
  { pool with bytes, size := pool.size + (text.strlen + 1) }

namespace Pool

variable {pool : Pool} {bytes : List UInt8} {text : CString}
  (same : ∀ i < pool.size, bytes[i]? = pool.bytes[i]?)

include same

/-- An append keeps the strings below the watermark. -/
theorem Stored.append {name : Name κ} {stored : CString} (before : pool.Stored name stored) :
    (pool.append bytes text).Stored name stored :=
  before.keep rfl (Nat.le_add_right _ _) fun i covered =>
    same i (Nat.lt_of_lt_of_le covered.2 before.region_le)

variable (nonempty : text.chars ≠ []) (holds : Holds bytes pool.size text.terminated)

omit same in
include nonempty holds in
theorem append_stored :
    (pool.append bytes text).Stored (.pooled (pool.buffer + pool.size) : Name κ) text := by
  refine .pooled (Nat.le_add_right _ _) nonempty ?_ ?_
  · rw [Pool.append, Nat.add_sub_cancel_left]
    exact holds
  · rw [Pool.append, Nat.add_sub_cancel_left]

include nonempty holds in
/-- An append gives a new name its own region. -/
theorem Layout.append {names : Multiset (Name κ)} (layout : pool.Layout names)
    (length : bytes.length = pool.bytes.length)
    (fits : pool.size + (text.strlen + 1) ≤ pool.capacity) :
    (pool.append bytes text).Layout (.pooled (pool.buffer + pool.size) ::ₘ names) := by
  have new := append_stored (κ := κ) nonempty holds
  have kept : names.map (pool.append bytes text).region = names.map pool.region := by
    apply Multiset.map_congr rfl
    intro name member
    obtain ⟨stored, before⟩ := layout.stored name member
    exact before.region_eq (before.append same) rfl
  refine ⟨length.trans layout.length_eq, fits, ?_, ?_⟩
  · intro name member
    rcases Multiset.mem_cons.mp member with rfl | member
    · exact ⟨text, new⟩
    · obtain ⟨stored, before⟩ := layout.stored name member
      exact ⟨stored, before.append same⟩
  · rw [Multiset.map_cons, kept]
    have offset : ((pool.append bytes text).region
        (.pooled (pool.buffer + pool.size) : Name κ)).1 = pool.size :=
      Nat.add_sub_cancel_left _ _
    rw [← Prod.mk.eta (p := (pool.append bytes text).region _), offset]
    apply layout.apart.cons_above
    intro region member
    obtain ⟨name, stored, rfl⟩ := Multiset.mem_map.mp member
    obtain ⟨stored, before⟩ := layout.stored name stored
    exact before.region_le

include nonempty holds in
/-- An append accounts for the bytes of the new name. -/
theorem Ok.append {names : Multiset (Name κ)} (ok : pool.Ok names)
    (length : bytes.length = pool.bytes.length)
    (fits : pool.size + (text.strlen + 1) ≤ pool.capacity) :
    ({ pool.append bytes text with used := pool.used + (text.strlen + 1) } : Pool).Ok
      (.pooled (pool.buffer + pool.size) ::ₘ names) where
  toLayout := (ok.toLayout.append same nonempty holds length fits).setUsed _
  based := ok.based
  used_eq := by
    have new := append_stored (κ := κ) nonempty holds
    have kept : (pool.append bytes text).footprint names = pool.footprint names := by
      unfold Pool.footprint
      congr 1
      apply Multiset.map_congr rfl
      intro name member
      obtain ⟨stored, before⟩ := ok.stored name member
      rw [before.key_eq, (before.append same).key_eq]
    change pool.used + (text.strlen + 1) = (pool.append bytes text).footprint _
    rw [Pool.footprint_cons, new.key_eq, kept, ← ok.used_eq, Nat.add_comm, Key.footprint,
      CString.footprint_of_nonempty nonempty]
  used_le := Nat.add_le_add_right ok.used_le _

end Pool

/-- The shared empty string takes no byte. -/
theorem Pool.Layout.cons_emptyString {pool : Pool} {names : Multiset (Name κ)}
    (layout : pool.Layout names) : pool.Layout (.emptyString ::ₘ names) := by
  refine ⟨layout.length_eq, layout.size_le, ?_, ?_⟩
  · intro name member
    rcases Multiset.mem_cons.mp member with rfl | member
    · exact ⟨_, .emptyString⟩
    · exact layout.stored name member
  · intro i
    rw [Multiset.map_cons, Multiset.countP_cons_of_neg]
    · exact layout.apart i
    · rintro ⟨-, inside⟩
      exact absurd inside (Nat.not_lt_zero i)

/-- Fewer names keep the layout. -/
theorem Pool.Layout.of_cons {pool : Pool} {name : Name κ} {names : Multiset (Name κ)}
    (layout : pool.Layout (name ::ₘ names)) : pool.Layout names where
  length_eq := layout.length_eq
  size_le := layout.size_le
  stored other member := layout.stored other (Multiset.mem_cons_of_mem member)
  apart := layout.apart.of_le (Multiset.map_le_map (Multiset.le_cons_self _ _))

/-- The pool after the string at an address was invalidated. -/
def Pool.erase (pool : Pool) (address : Nat) : Pool :=
  { pool with
    used := pool.used - ((pool.stringAt address).strlen + 1)
    bytes := pool.bytes.set (address - pool.buffer) 0 }

section Erase

variable {pool : Pool} {address : Nat} {names : Multiset (Name κ)}

/-- The erased byte belongs to no other name. -/
theorem Pool.Layout.erase_keeps (layout : pool.Layout (.pooled address ::ₘ names)) {name : Name κ}
    (member : name ∈ names) {other : CString} (before : pool.Stored name other) :
    (pool.erase address).Stored name other := by
  refine before.keep rfl (Nat.le_refl _) fun i covered => ?_
  have first : Covers (address - pool.buffer) (pool.region (.pooled address : Name κ)) :=
    ⟨Nat.le_refl _, Nat.lt_add_of_pos_right (Nat.succ_pos _)⟩
  have apart : address - pool.buffer ≠ i := by
    rintro rfl
    have regions := layout.apart
    rw [Multiset.map_cons] at regions
    exact regions.outside (Multiset.mem_map_of_mem _ member) first covered
  exact List.getElem?_set_ne apart

theorem Pool.Layout.erase (layout : pool.Layout (.pooled address ::ₘ names)) :
    (pool.erase address).Layout names := by
  have before := layout.of_cons
  refine ⟨(List.length_set ..).trans layout.length_eq, layout.size_le, ?_, ?_⟩
  · intro name member
    obtain ⟨other, held⟩ := before.stored name member
    exact ⟨other, layout.erase_keeps member held⟩
  · have kept : names.map (pool.erase address).region = names.map pool.region := by
      apply Multiset.map_congr rfl
      intro name member
      obtain ⟨other, held⟩ := before.stored name member
      exact held.region_eq (layout.erase_keeps member held) rfl
    rw [kept]
    exact before.apart

/-- The erased name leaves the accounting of the other names correct. -/
theorem Pool.Ok.erase {text : CString} (ok : pool.Ok (.pooled address ::ₘ names))
    (stored : pool.Stored (.pooled address : Name κ) text) : (pool.erase address).Ok names where
  toLayout := ok.toLayout.erase
  based := ok.based
  used_eq := by
    have used := ok.used_eq
    have nonempty : text.chars ≠ [] := by
      cases stored
      assumption
    have kept : (pool.erase address).footprint names = pool.footprint names := by
      unfold Pool.footprint
      congr 1
      apply Multiset.map_congr rfl
      intro name member
      obtain ⟨other, held⟩ := ok.of_cons.stored name member
      rw [held.key_eq, (ok.toLayout.erase_keeps member held).key_eq]
    rw [Pool.footprint_cons, stored.key_eq, Key.footprint, CString.footprint_of_nonempty nonempty] at used
    rw [kept, Pool.erase, stored.stringAt_eq]
    dsimp only
    omega
  used_le := (Nat.sub_le _ _).trans ok.used_le

end Erase
end Coucal
