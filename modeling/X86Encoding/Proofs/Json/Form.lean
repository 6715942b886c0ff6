import X86Encoding.Json.Form

set_option autoImplicit false

namespace X86Encoding

namespace JsonForm

class ReadsBack (α : Type) [JsonForm α] : Prop where
  read?_write (a : α) : read? (write a) = some a

attribute [simp] ReadsBack.read?_write

/-- A type that is not optional: `null` is how a missing value is written. -/
class Lawful (α : Type) [JsonForm α] : Prop extends ReadsBack α where
  write_ne_null (a : α) : write a ≠ .null

section Containers

variable {α : Type} [JsonForm α]

theorem read?_option_of_ne_null {j : Json} (h : j ≠ .null) :
    read? j = (read? j : Option α).map some := by
  cases j with
  | null => exact absurd rfl h
  | _ => rfl

instance [Lawful α] : ReadsBack (Option α) where
  read?_write
    | none => rfl
    | some a => by
      change read? (write a) = some (some a)
      rw [read?_option_of_ne_null (Lawful.write_ne_null a), ReadsBack.read?_write,
        Option.map_some]

theorem readItems?_map_write [ReadsBack α] (as : List α) :
    readItems? (as.map write) = some as := by
  induction as with
  | nil => rfl
  | cons a as ih => simp [readItems?, ih]

instance [ReadsBack α] : Lawful (List α) where
  read?_write := readItems?_map_write
  write_ne_null _ := nofun

end Containers

theorem readNat?_nat {limit n : Nat} (h : n < limit) : readNat? limit (.nat n) = some n :=
  if_pos ⟨Int.natCast_nonneg n, h⟩

theorem lt_of_readNat? {limit n : Nat} {j : Json} (h : readNat? limit j = some n) :
    n < limit := by
  unfold readNat? at h
  split at h
  · split at h
    · rename_i hlt
      cases h
      exact hlt.2
    · cases h
  · cases h

instance : Lawful Bool where
  read?_write _ := rfl
  write_ne_null _ := nofun

instance : Lawful UInt8 where
  read?_write n := by
    change (readNat? (2 ^ 8) (.nat n.toNat)).map UInt8.ofNat = some n
    rw [readNat?_nat n.toNat_lt, Option.map_some, UInt8.ofNat_toNat]
  write_ne_null _ := nofun

instance : Lawful Text where
  read?_write _ := rfl
  write_ne_null _ := nofun

theorem lawful_ofNames {α : Type} {all : List α} {name : α → Text} (hall : ∀ a, a ∈ all)
    (hname : ∀ a ∈ all, all.find? (name · == name a) = some a) : @Lawful α (ofNames all name) :=
  @Lawful.mk α (ofNames all name) (@ReadsBack.mk α (ofNames all name) fun a => hname a (hall a))
    fun _ => nofun

theorem checked_eq_some_iff {α β ε : Type} {raw : Option β} {check : β → Except ε α}
    {a : α} : (raw.bind fun b => (check b).toOption) = some a ↔
      ∃ b, raw = some b ∧ check b = .ok a := by
  rw [Option.bind_eq_some_iff]
  refine exists_congr fun b => and_congr_right fun _ => ?_
  cases check b with
  | error e => exact ⟨nofun, nofun⟩
  | ok a' => simp only [Except.toOption, Option.some.injEq, Except.ok.injEq]

end JsonForm
end X86Encoding
