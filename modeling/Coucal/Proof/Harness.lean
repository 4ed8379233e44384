import Coucal.Abstract.Views
import Coucal.Construction.Harness
import Coucal.Library.Driven
import Coucal.Library.Words
import Coucal.Proof.Ownership
import Coucal.Result.Representation

namespace Coucal

open Driven Outcome

variable {P : Platform} {κ : Type}

/-- A call with a key of the caller changes the table. -/
def Hashtable.makes (env : Env P κ) (op : Op P (Key κ)) (h : Hashtable P κ) : Result (Hashtable P κ) :=
  (h.apply env (op.map .own)).map Prod.snd

/-- The outcome of a test program whose checks hold: it makes its calls on a new table, and completes when all of
them return. The first one that does not ends it, and so does the use of no table. -/
def carried (env : Env P κ) (ops : List (Op P (Key κ))) : Checked Unit :=
  match Hashtable.new env 0 with
  | none => .error (.table .fault)
  | some h => call ((drive (Hashtable.makes env) ops h).map fun _ => ())

theorem carried_ne_check (env : Env P κ) (ops : List (Op P (Key κ))) : carried env ops ≠ .error .check := by
  unfold carried
  split
  next => nofun
  next h _ => cases drive (Hashtable.makes env) ops h <;> nofun

/-- A test program that makes the calls of a list on its new table has the outcome of these calls. -/
theorem carried_of_follows {env : Env P κ} {ops : List (Op P (Key κ))} {program : Hashtable P κ → Checked Unit}
    (follows : ∀ created, Hashtable.new env 0 = some created →
      Follows (Hashtable.makes env) .table ops created (program created) fun _ _ => True) :
    call ((Hashtable.new env 0).elim (.error .fault) .ok) >>= program = carried env ops := by
  unfold carried
  cases new : Hashtable.new env 0 with
  | none => rfl
  | some created =>
      change program created = _
      have outcome := follows created new
      unfold Follows at outcome
      dsimp only
      cases made : drive (Hashtable.makes env) ops created with
      | error failure =>
          rw [made] at outcome
          exact outcome
      | ok final =>
          rw [made] at outcome
          obtain ⟨⟨⟩, same, -⟩ := outcome
          exact same

theorem makes_writeValue (env : Env P κ) (key : Key κ) (value : Value P) (h : Hashtable P κ) :
    Hashtable.makes env (.writeValue key value) h = (h.writeValue env (.own key) value).map Prod.snd := by
  unfold Hashtable.makes Hashtable.apply Op.map
  dsimp only
  cases h.writeValue env (.own key) value <;> rfl

theorem makes_remove (env : Env P κ) (key : Key κ) (h : Hashtable P κ) :
    Hashtable.makes env (.remove key) h = (h.remove env (.own key)).map Prod.snd := by
  unfold Hashtable.makes Hashtable.apply Op.map
  dsimp only
  cases h.remove env (.own key) <;> rfl

theorem makes_inc (env : Env P κ) (key : Key κ) (h : Hashtable P κ) :
    Hashtable.makes env (.inc key) h = (h.inc env (.own key)).map Prod.snd := by
  unfold Hashtable.makes Hashtable.apply Op.map
  dsimp only
  cases h.inc env (.own key) <;> rfl

/-- A call of a test program keeps the invariant of its table. -/
theorem Inv.makes {env : Env P κ} {h h' : Hashtable P κ} {op : Op P (Key κ)} (returns : env.DupReturns)
    (inv : Inv env h) (made : Hashtable.makes env op h = .ok h') : Inv env h' := by
  unfold Hashtable.makes at made
  cases applied : h.apply env (op.map .own) with
  | error failure =>
      rw [applied] at made
      cases made
  | ok result =>
      rw [applied] at made
      cases made
      have effect := (apply_spec (returns.grantsCall h _) inv (op.readable_own h)).of_ok applied
      exact effect.inv inv

/-- A check that holds has no effect. -/
theorem check_of {condition : Prop} [Decidable condition] (holds : condition) : check condition = .ok () :=
  guard_eq_ok.mpr holds

/-- A digit is neither white space nor a sign. -/
theorem not_space_of_digit {char : UInt8} (digit : Decimal.isDigit char = true) :
    isSpace char = false ∧ char ≠ 45 ∧ char ≠ 43 := by
  have bounds := of_decide_eq_true digit
  have apart : ∀ other : UInt8, other.toNat < 48 → char ≠ other := by
    rintro other low rfl
    exact absurd bounds.1 (Nat.not_le.mpr low)
  refine ⟨decide_eq_false ?_, apart 45 (by decide), apart 43 (by decide)⟩
  rintro (same | ⟨-, low⟩)
  · exact apart 32 (by decide) same
  · omega

/-- The digits of a number are scanned back. -/
theorem scanUnsigned_print (width n : Nat) : scanUnsigned width (Decimal.print n) = some (BitVec.ofNat width n) := by
  have all : (Decimal.print n).takeWhile Decimal.isDigit = Decimal.print n := by
    have whole := Decimal.takeWhile_print n [] fun char first => by cases first
    rwa [List.append_nil] at whole
  have value := Decimal.value_print n
  have digits : ∀ char ∈ Decimal.print n, Decimal.isDigit char = true := fun _ => Decimal.isDigit_of_mem_print
  have nonempty := Decimal.print_ne_nil n
  unfold scanUnsigned
  generalize Decimal.print n = chars at *
  cases chars with
  | nil => exact absurd rfl nonempty
  | cons first rest =>
      obtain ⟨solid, minus, plus⟩ := not_space_of_digit (digits first List.mem_cons_self)
      rw [List.dropWhile_cons_of_neg (by simp [solid])]
      simp [minus, plus, all, value]

/-- The characters of a key are the literal ones and the digits of its number. -/
theorem keyName_chars {literal : List UInt8} (noNul : (0 : UInt8) ∉ literal) (id : Nat) :
    (keyName literal id).chars = literal ++ Decimal.print id := by
  refine List.takeWhile_eq_self_iff.mpr fun char member => ?_
  rcases List.mem_append.mp member with among | digit
  · exact decide_eq_true fun zero => noNul (zero ▸ among)
  · refine decide_eq_true fun zero => ?_
    have absurdDigit := Decimal.isDigit_of_mem_print digit
    rw [zero] at absurdDigit
    cases absurdDigit

/-- A key is scanned back to its number. -/
theorem scan_keyName {literal : List UInt8} (noNul : (0 : UInt8) ∉ literal) (width id : Nat) :
    scan width literal (keyName literal id).chars = some (BitVec.ofNat width id) := by
  unfold scan
  rw [keyName_chars noNul, if_pos (by simp), List.drop_left, scanUnsigned_print]

theorem keyName_injective {literal : List UInt8} (noNul : (0 : UInt8) ∉ literal) :
    Function.Injective (keyName literal) := by
  intro id other same
  have chars := congrArg CString.chars same
  rw [keyName_chars noNul, keyName_chars noNul] at chars
  exact Decimal.print_injective (List.append_cancel_left chars)

/-- The deletion at the end of a test program returns. -/
theorem Shows.delete {env : Env P κ} {lawful : env.Lawful} {h : Hashtable P κ} {map : FiniteMap lawful}
    (shows : Shows lawful h map) : ∃ t, h.delete env = .ok t := by
  have deletion := delete_spec shows.inv.stash.toBounded shows.inv.managed
  cases deleted : h.delete env with
  | error failure => exact absurd deleted (fun stopped => (deletion.of_error stopped).elim)
  | ok t => exact ⟨t, rfl⟩

/-- The keys of a harness have no NUL, and an `int` has at least 16 bits. -/
structure Harness.Ok (harness : Harness) (P : Platform) : Prop where
  noNul : (0 : UInt8) ∉ harness.literal
  keys_le : harness.keys ≤ 2 ^ P.intSize

namespace Harness

variable {harness : Harness}

theorem key_injective (ok : harness.Ok P) {id other : Nat} (same : (harness.key id : Key κ) = harness.key other) :
    id = other := by
  unfold key at same
  exact keyName_injective ok.noNul (Key.string.inj same)

variable [DecidableEq κ] {hash : Key κ → Hashkeys P} {alloc : Nat → Nat}

theorem apart (ok : harness.Ok P) (hash : Key κ → Hashkeys P) (alloc : Nat → Nat) :
    FiniteMap.Apart (Env.strings hash false alloc) harness.key harness.keys :=
  fun _ _ _ _ equal => key_injective ok (of_decide_eq_true equal)

/-- The table of a test program shows a map that binds the same keys as the reference model. -/
structure Tracks (harness : Harness) (hash : Key κ → Hashkeys P) (alloc : Nat → Nat) (h : Hashtable P κ)
    (shadow : Shadow P) (map : FiniteMap (Env.strings_lawful hash false alloc)) : Prop where
  shows : Shows (Env.strings_lawful hash false alloc) h map
  find : map.Binds harness.key harness.keys shadow.present shadow.value
  only : ∀ key value, map.find key = some value → ∃ kid < harness.keys, key = harness.key kid
  count : shadow.count = map.keys.card

namespace Tracks

/-- An empty table agrees with the empty model. -/
theorem start {h : Hashtable P κ} (shows : Shows (Env.strings_lawful hash false alloc) h ∅) :
    harness.Tracks hash alloc h (Shadow.empty P) ∅ := by
  have absent : ∀ key : Key κ, FiniteMap.find (∅ : FiniteMap (Env.strings_lawful hash false alloc)) key = none :=
    fun key => rfl
  refine ⟨shows, fun kid _ => absent _, fun key value found => ?_, rfl⟩
  cases (absent key).symm.trans found

variable {h h' : Hashtable P κ} {shadow : Shadow P} {map : FiniteMap (Env.strings_lawful hash false alloc)}
  {kid : Nat}

theorem mem_keys (tracks : Tracks harness hash alloc h shadow map) (inside : kid < harness.keys) :
    Quotient.mk _ (harness.key kid) ∈ map.keys ↔ shadow.present kid = true := by
  rw [← tracks.find.isSome_eq inside, Finmap.mem_keys, Finmap.mem_iff, Option.isSome_iff_exists]
  exact Iff.rfl

/-- A binding of a key in the map is one in the model. -/
theorem set (tracks : Tracks harness hash alloc h shadow map) (ok : harness.Ok P) (inside : kid < harness.keys)
    {value : Value P}
    (shows : Shows (Env.strings_lawful hash false alloc) h' (map.insert (Quotient.mk _ (harness.key kid)) value)) :
    Tracks harness hash alloc h' (shadow.write kid value) (map.insert (Quotient.mk _ (harness.key kid)) value) := by
  refine ⟨shows, tracks.find.insert (harness.apart ok hash alloc) inside value, fun key bound found => ?_, ?_⟩
  · rw [FiniteMap.Represents.find_insert] at found
    split at found
    next equal => exact ⟨kid, inside, (of_decide_eq_true equal).symm⟩
    next => exact tracks.only key bound found
  · rw [FiniteMap.Represents.keys_insert]
    change shadow.added kid = _
    unfold Shadow.added
    split
    next present => rw [Finset.insert_eq_of_mem ((tracks.mem_keys inside).mpr present), tracks.count]
    next absent =>
      rw [Finset.card_insert_of_notMem fun member => absent ((tracks.mem_keys inside).mp member), tracks.count]

/-- An erased key of the map is absent in the model. -/
theorem erase (tracks : Tracks harness hash alloc h shadow map) (ok : harness.Ok P) (inside : kid < harness.keys)
    (shows : Shows (Env.strings_lawful hash false alloc) h' (map.erase (Quotient.mk _ (harness.key kid)))) :
    Tracks harness hash alloc h' (shadow.remove kid) (map.erase (Quotient.mk _ (harness.key kid))) := by
  refine ⟨shows, tracks.find.erase (harness.apart ok hash alloc) inside, fun key bound found => ?_, ?_⟩
  · rw [FiniteMap.Represents.find_erase] at found
    split at found
    next => cases found
    next => exact tracks.only key bound found
  · rw [Finmap.keys_erase]
    unfold Shadow.remove
    dsimp only
    split
    next present => rw [Finset.card_erase_of_mem ((tracks.mem_keys inside).mpr present), tracks.count]
    next absent =>
      rw [Finset.erase_eq_of_notMem fun member => absent ((tracks.mem_keys inside).mp member), tracks.count]

end Tracks

section Calls

variable {h : Hashtable P κ} {shadow : Shadow P} {map : FiniteMap (Env.strings_lawful hash false alloc)}
  {kid : Nat}

/-- The table and the model after a call of a test program. -/
def After (harness : Harness) (hash : Key κ → Hashkeys P) (alloc : Nat → Nat) (shadow : Shadow P)
    (state : Hashtable P κ × Shadow P) (h : Hashtable P κ) : Prop :=
  state = (h, shadow) ∧ ∃ map, Tracks harness hash alloc h shadow map

theorem write_spec (tracks : Tracks harness hash alloc h shadow map) (ok : harness.Ok P) (inside : kid < harness.keys)
    (value : Value P) :
    Follows (Hashtable.makes (Env.strings hash false alloc)) .table [.writeValue (harness.key kid) value] h
      (harness.write (Env.strings hash false alloc) kid value h shadow)
      (harness.After hash alloc (shadow.write kid value)) := by
  unfold Harness.write
  refine .call (makes_writeValue _ _ _ _) ?_
  rintro ⟨added, h'⟩ returned
  obtain ⟨flag, shows⟩ := (tracks.shows.write (.own (harness.key kid)) trivial value).of_ok returned
  dsimp only
  rw [check_of (flag.trans (tracks.find.isNone_eq inside)), ok_bind]
  exact .done ⟨rfl, _, tracks.set ok inside shows⟩

theorem remove_spec (tracks : Tracks harness hash alloc h shadow map) (ok : harness.Ok P) (inside : kid < harness.keys) :
    Follows (Hashtable.makes (Env.strings hash false alloc)) .table [.remove (harness.key kid)] h
      (harness.remove (Env.strings hash false alloc) kid h shadow) (harness.After hash alloc (shadow.remove kid)) := by
  unfold Harness.remove
  refine .call (makes_remove _ _ _) ?_
  rintro ⟨removed, h'⟩ returned
  obtain ⟨flag, shows⟩ := (tracks.shows.remove (.own (harness.key kid))).of_ok returned
  dsimp only
  rw [check_of (flag.trans (tracks.find.isSome_eq inside)), ok_bind]
  exact .done ⟨rfl, _, tracks.erase ok inside shows⟩

theorem lookup_spec (tracks : Tracks harness hash alloc h shadow map) (inside : kid < harness.keys) :
    harness.lookup (Env.strings hash false alloc) kid h shadow = .ok (h, shadow) := by
  have exists_ := (tracks.shows.exists_eq (.own (harness.key kid))).trans (tracks.find.isSome_eq inside)
  have read := (tracks.shows.readValue_eq (.own (harness.key kid))).trans (tracks.find kid inside)
  unfold Harness.lookup Hashtable.read
  rw [read]
  rw [check_of exists_, ok_bind]
  split
  next =>
    dsimp only
    rw [check_of ⟨rfl, rfl⟩, ok_bind]
  next => rfl

theorem inc_spec (tracks : Tracks harness hash alloc h shadow map) (ok : harness.Ok P) (inside : kid < harness.keys)
    (small : ((shadow.inc kid).value kid).toNat < 2 ^ (P.intSize - 1)) :
    Follows (Hashtable.makes (Env.strings hash false alloc)) .table [.inc (harness.key kid)] h
      (harness.inc (Env.strings hash false alloc) kid h shadow) (harness.After hash alloc (shadow.inc kid)) := by
  have value : (shadow.inc kid).value kid = if shadow.present kid then shadow.value kid + 1 else 1 :=
    Function.update_self ..
  have old : (map.find (harness.key kid)).getD 0 + 1 = (shadow.inc kid).value kid := by
    rw [tracks.find kid inside, value]
    split
    next => rfl
    next => exact BitVec.zero_add 1
  unfold Harness.inc
  refine .call (makes_inc _ _ _) ?_
  rintro ⟨answer, h'⟩ returned
  obtain ⟨got, shows⟩ := (tracks.shows.inc (.own (harness.key kid)) trivial).of_ok returned
  change answer = ((map.find (harness.key kid)).getD 0 + 1).setWidth P.intSize at got
  change Shows _ h' (map.insert (Quotient.mk _ (harness.key kid)) ((map.find (harness.key kid)).getD 0 + 1)) at shows
  rw [old] at got shows
  have same : answer.signExtend P.wordSize = (shadow.inc kid).value kid := by
    rw [got]
    exact Words.signExtend_setWidth small
  dsimp only
  rw [check_of same, ok_bind]
  exact .done ⟨rfl, _, tracks.set ok inside (value ▸ shows)⟩

/-- The numbers of items agree after each call. -/
theorem counted_of (tracks : Tracks harness hash alloc h shadow map) : counted (h, shadow) = .ok (h, shadow) := by
  have same : h.nitems = shadow.count := tracks.shows.used_eq.trans tracks.count.symm
  unfold counted
  rw [check_of same, ok_bind]

/-- A live slot holds a key of the harness, with the value of the model. -/
theorem Tracks.slot (tracks : Tracks harness hash alloc h shadow map) {slot : Slot} {name : Name κ}
    (inside : h.Within slot) (named : (h.item slot).name = some name) :
    ∃ kid < harness.keys, h.key name = harness.key kid ∧ shadow.present kid = true ∧
      (h.item slot).value = shadow.value kid := by
  have found := tracks.shows.find_entry inside (Hashtable.entryAt_of_named named)
  obtain ⟨kid, below, key⟩ := tracks.only _ _ found
  dsimp only at found key
  rw [key, tracks.find kid below] at found
  split at found
  next present => exact ⟨kid, below, key, present, (Option.some.inj found).symm⟩
  next => cases found

/-- The enumeration passes its checks and counts the items that it returns. -/
theorem enumerate_eq (tracks : Tracks harness hash alloc h shadow map) (ok : harness.Ok P) {index rounds seen : Nat}
    {slots : List Slot} {checked : Nat → Bool} (enumeration : h.Enumeration index slots)
    (enough : slots.length < rounds)
    (unchecked : ∀ slot ∈ slots, ∀ kid name, (h.item slot).name = some name → h.key name = harness.key kid →
      checked kid = false) :
    harness.enumerate h shadow rounds index checked seen = .ok (seen + slots.length) := by
  induction enumeration generalizing rounds checked seen with
  | @last index ends =>
      cases rounds with
      | zero => cases enough
      | succ rounds =>
          unfold enumerate
          dsimp only
          rw [ends]
          rfl
  | @next index index' slot slots returns rest ih =>
      cases rounds with
      | zero => cases enough
      | succ rounds =>
          obtain ⟨nodup, members⟩ := (Hashtable.Enumeration.next returns rest).spec tracks.shows.inv.stash.toBounded
          obtain ⟨inside, live, -⟩ := (members slot).mp List.mem_cons_self
          obtain ⟨name, named⟩ := Option.ne_none_iff_exists'.mp live
          obtain ⟨kid, below, key, present, value⟩ := tracks.slot inside named
          have first := unchecked slot List.mem_cons_self kid name named key
          have number : (BitVec.ofNat P.intSize kid).toNat = kid := by
            rw [BitVec.toNat_ofNat]
            exact Nat.mod_eq_of_lt (below.trans_le ok.keys_le)
          have scanned : scan P.intSize harness.literal (keyName harness.literal kid).chars =
              some (BitVec.ofNat P.intSize kid) := scan_keyName ok.noNul _ _
          have others : ∀ other ∈ slots, ∀ kid' name', (h.item other).name = some name' →
              h.key name' = harness.key kid' → Function.update checked kid true kid' = false := by
            intro other member kid' name' named' key'
            by_cases same : kid' = kid
            · subst same
              have inside' := ((members other).mp (List.mem_cons_of_mem _ member)).1
              have one := tracks.shows.inv.slot_unique (Env.strings_lawful hash false alloc) inside inside'
                (Hashtable.entryAt_of_named named) (Hashtable.entryAt_of_named named')
                (decide_eq_true (key.trans key'.symm))
              exact absurd (one ▸ member) (List.nodup_cons.mp nodup).1
            · rw [Function.update_of_ne same]
              exact unchecked other (List.mem_cons_of_mem _ member) kid' name' named' key'
          have continued : harness.enumerate h shadow rounds index' (Function.update checked kid true) (seen + 1) =
              .ok (seen + 1 + slots.length) := ih (Nat.lt_of_succ_lt_succ enough) others
          unfold enumerate
          rw [returns]
          dsimp only
          rw [named, Option.elim_some, key]
          change Except.ok (keyName harness.literal kid) >>= _ = _
          rw [ok_bind, scanned, check_of Option.isSome_some, ok_bind, Option.getD_some, number, check_of below, ok_bind,
            check_of ⟨present, first⟩, ok_bind, check_of value, ok_bind, continued, List.length_cons]
          exact congrArg Except.ok (by omega)

/-- The end of a test program passes its checks. -/
theorem finish_eq (tracks : Tracks harness hash alloc h shadow map) (ok : harness.Ok P) :
    harness.finish (Env.strings hash false alloc) (h, shadow) = .ok () := by
  obtain ⟨slots, enumeration⟩ := h.exists_enumeration 0
  have inv := tracks.shows.inv
  have length : slots.length = h.used := (enumeration.length_eq inv.stash.toBounded).trans inv.used_eq.symm
  have half := inv.half
  have powers : 2 ^ (h.lgSize - 1) ≤ 2 ^ h.lgSize := Nat.pow_le_pow_right Nat.two_pos (Nat.sub_le _ _)
  have enough : slots.length < 2 ^ h.lgSize + stashSize + 1 := by omega
  have walked : harness.enumerate h shadow (2 ^ h.lgSize + stashSize + 1) 0 (fun _ => false) 0 =
      .ok (0 + slots.length) := enumerate_eq tracks ok enumeration enough fun _ _ _ _ _ _ => rfl
  have same : 0 + slots.length = shadow.count := by
    rw [Nat.zero_add, length, tracks.shows.used_eq, tracks.count]
  unfold finish
  dsimp only
  rw [walked, ok_bind, check_of same, ok_bind]
  obtain ⟨t, deleted⟩ := tracks.shows.delete
  rw [deleted]
  rfl

end Calls
end Harness
end Coucal
