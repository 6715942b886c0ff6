import Mathlib.Data.List.Chain
import Mathlib.Data.List.TakeWhile
import X86Encoding.Proofs.Pattern.Runs
import X86Encoding.Proofs.Tiles

/-!
The runs of any text. They are what a loop lists that looks for a run where the one before stops.
As far as the text holds pattern characters only, the runs divide it; the first other character is
a fault, behind which nothing is looked for.
-/

set_option autoImplicit false

namespace X86Encoding

namespace BitRun

def text (r : BitRun) : Text := List.replicate r.length r.ch

def extent (r : BitRun) : Nat × Nat := (r.start, r.length)

end BitRun

namespace Pattern

/-- Runs that divide a text whose first byte is at `start`: they lie in a row over its bytes,
neighbours have different characters, and together they spell it. -/
structure IsPartition (t : Text) (start : Nat) (rs : List BitRun) : Prop where
  tiles : Tiles (start + (bytes t).length) start (rs.map BitRun.extent)
  neighbours : rs.IsChain fun r s => r.ch ≠ s.ch
  spells : rs.flatMap BitRun.text = t

namespace IsPartition

variable {t : Text} {start : Nat} {rs : List BitRun}

theorem length_pos (h : IsPartition t start rs) : ∀ r ∈ rs, 0 < r.length := fun r hr =>
  h.tiles.size_pos r.extent (List.mem_map_of_mem hr)

theorem head?_text {r : BitRun} (h : IsPartition t start (r :: rs)) : t.head? = some r.ch := by
  obtain ⟨k, hk⟩ : ∃ k, r.length = k + 1 :=
    Nat.exists_eq_add_one.2 (h.length_pos r List.mem_cons_self)
  rw [← h.spells, List.flatMap_cons, BitRun.text, hk, List.replicate_succ]
  rfl

theorem cons (h : IsPartition t start rs) {c : Char} {place k : Nat}
    (hc : isPatternChar c = true) (hstart : start = place + (k + 1)) (ht : t.head? ≠ some c) :
    IsPartition (List.replicate (k + 1) c ++ t) place (⟨c, place, k + 1⟩ :: rs) where
  tiles := by
    have hbytes := congrArg List.length
      (bytes_replicate_append (toNat_lt_of_isPatternChar hc) (k + 1) t)
    rw [List.length_append, List.length_replicate] at hbytes
    have htiles := h.tiles
    rw [hstart, Nat.add_assoc, ← hbytes] at htiles
    exact .cons (Nat.succ_pos k) htiles
  neighbours := by
    cases rs with
    | nil => exact List.isChain_singleton _
    | cons r rs =>
      have hr : c ≠ r.ch := fun heq => ht (by rw [h.head?_text, heq])
      exact h.neighbours.cons_cons hr
  spells := by rw [List.flatMap_cons, h.spells, BitRun.text]

end IsPartition

/-- Pattern characters can be divided, and in front of a text they are listed in those runs. -/
theorem exists_isPartition {s : Text} (hs : ∀ c ∈ s, isPatternChar c = true) (start : Nat) :
    ∃ rs, IsPartition s start rs ∧ ∀ p t, (∀ c ∈ t.head?, isPatternChar c = false) →
      runsFrom p start (bytes (s ++ t)) =
        rs.map .ok ++ runsFrom p (start + (bytes s).length) (bytes t) := by
  induction s using Text.runInduction generalizing start with
  | nil => exact ⟨[], ⟨.nil, .nil, rfl⟩, fun p t ht => rfl⟩
  | run c k rest hrest ih =>
    have hc : isPatternChar c = true := hs c (by simp)
    obtain ⟨rs, hrs, hruns⟩ :=
      ih (fun d hd => hs d (List.mem_append_right _ hd)) (start + (k + 1))
    refine ⟨_, hrs.cons hc rfl hrest, fun p t ht => ?_⟩
    -- where the run is the last one, what follows it is not a pattern character
    have hbehind : (rest ++ t).head? ≠ some c := by
      cases rest with
      | nil => exact fun hhead => by simp [ht c hhead] at hc
      | cons d rest => exact hrest
    rw [List.append_assoc, runsFrom_run p start hc k hbehind, hruns p t ht,
      bytes_replicate_append (toNat_lt_of_isPatternChar hc), List.length_append,
      List.length_replicate, Nat.add_assoc]
    rfl

theorem toNat_ofNat_byte (b : UInt8) : (Char.ofNat b.toNat).toNat = b.toNat := by
  have hb := b.toNat_lt
  rw [Char.ofNat, dif_pos (Or.inl (by omega))]
  rfl

theorem runsFrom_of_not_isPatternChar (p : Text) (start : Nat) {c : Char}
    (hc : isPatternChar c = false) (t : Text) :
    runsFrom p start (bytes (c :: t)) = [.error (.format .patternCharacter p)] := by
  cases hbytes : String.utf8EncodeChar c with
  | nil => exact absurd hbytes String.utf8EncodeChar_ne_nil
  | cons b bs =>
    have hb : isPatternChar (Char.ofNat b.toNat) = false := by
      rw [Bool.eq_false_iff]
      intro hchar
      -- such a byte would be the first of a pattern character only
      have hhead : (String.utf8EncodeChar c).head? =
          some (UInt8.ofNat (Char.ofNat b.toNat).toNat) := by
        rw [hbytes, toNat_ofNat_byte, UInt8.ofNat_toNat]
        rfl
      rw [← eq_of_head_utf8EncodeChar (toNat_lt_of_isPatternChar hchar) hhead, hc] at hchar
      cases hchar
    rw [bytes_cons, hbytes, List.cons_append, runsFrom, headRun, hb]
    rfl

/-- The text is divided up to `t`, where a fault is listed if anything is left. -/
theorem exists_runs {s t : Text} (hs : ∀ c ∈ s, isPatternChar c = true)
    (ht : ∀ c ∈ t.head?, isPatternChar c = false) :
    ∃ rs, IsPartition s 0 rs ∧ runs s = rs.map .ok ∧ runs (s ++ t) = rs.map .ok ++
      if t = [] then [] else [.error (.format .patternCharacter (s ++ t))] := by
  obtain ⟨rs, hrs, hruns⟩ := exists_isPartition hs 0
  have hend := hruns s [] nofun
  rw [List.append_nil, show bytes [] = [] from rfl, runsFrom, List.append_nil] at hend
  refine ⟨rs, hrs, hend, (hruns (s ++ t) t ht).trans ?_⟩
  cases t with
  | nil => rw [show bytes [] = [] from rfl, runsFrom, if_pos rfl]
  | cons c t => rw [runsFrom_of_not_isPatternChar _ _ (ht c rfl), if_neg (List.cons_ne_nil c t)]

/-- The place where a loop over the bytes goes on. Behind a fault that is their end. -/
def placeBehind (p : Text) : Except EncodingError BitRun → Nat
  | .ok run => run.stop
  | .error _ => (bytes p).length

/-- The loop from the byte at `index` on, and what it lists. It ends where no byte is left. -/
inductive Lists (p : Text) : Nat → List (Except EncodingError BitRun) → Prop where
  | stop {index : Nat} : (bytes p).length ≤ index → Lists p index []
  | next {index : Nat} {item : Except EncodingError BitRun}
      {items : List (Except EncodingError BitRun)} : index < (bytes p).length →
      runAt p index = item → Lists p (placeBehind p item) items → Lists p index (item :: items)

section

variable {p : Text} {index : Nat}

theorem runAt_of_lt (h : index < (bytes p).length) :
    runAt p index = headRun p index (bytes p)[index] ((bytes p).drop (index + 1)) := by
  rw [runAt, List.drop_eq_getElem_cons h]

theorem drop_stop_of_headRun {start : Nat} {first : UInt8} {rest : List UInt8} {run : BitRun}
    (h : headRun p start first rest = .ok run) :
    start < run.stop ∧ rest.drop (run.stop - (start + 1)) = rest.dropWhile (· == first) := by
  simp only [headRun] at h
  split at h
  · obtain rfl := Except.ok.inj h
    have hlength : start + (1 + (rest.takeWhile (· == first)).length) - (start + 1) =
        (rest.takeWhile (· == first)).length := by omega
    refine ⟨by simp only [BitRun.stop]; omega, ?_⟩
    rw [BitRun.stop, hlength]
    nth_rewrite 2 [← List.takeWhile_append_dropWhile (p := (· == first)) (l := rest)]
    exact List.drop_left
  · cases h

theorem lt_placeBehind (h : index < (bytes p).length) : index < placeBehind p (runAt p index) := by
  cases hitem : runAt p index with
  | error e => exact h
  | ok run => exact (drop_stop_of_headRun ((runAt_of_lt h).symm.trans hitem)).1

theorem runsFrom_drop (h : index < (bytes p).length) :
    runsFrom p index ((bytes p).drop index) = runAt p index ::
      runsFrom p (placeBehind p (runAt p index))
        ((bytes p).drop (placeBehind p (runAt p index))) := by
  rw [List.drop_eq_getElem_cons h, runsFrom, ← runAt_of_lt h]
  cases hitem : runAt p index with
  | error e => simp only [placeBehind, List.drop_length, runsFrom]
  | ok run =>
    obtain ⟨hlt, hdrop⟩ := drop_stop_of_headRun ((runAt_of_lt h).symm.trans hitem)
    rw [List.drop_drop, Nat.add_sub_cancel' hlt] at hdrop
    simp only [placeBehind, hdrop]

theorem Lists.eq_runsFrom {items : List (Except EncodingError BitRun)} (h : Lists p index items) :
    items = runsFrom p index ((bytes p).drop index) := by
  induction h with
  | stop hle => rw [List.drop_eq_nil_iff.2 hle, runsFrom]
  | next hlt hitem hrest ih =>
    subst hitem
    rw [runsFrom_drop hlt, ← ih]

/-- The loop ends, for it goes on behind the place where it is. -/
theorem lists_runsFrom (p : Text) (index : Nat) :
    Lists p index (runsFrom p index ((bytes p).drop index)) := by
  induction hn : (bytes p).length - index using Nat.strongRecOn generalizing index with
  | ind n ih =>
    by_cases hlt : index < (bytes p).length
    · have hbehind := lt_placeBehind hlt
      rw [runsFrom_drop hlt]
      exact .next hlt rfl (ih _ (by omega) _ rfl)
    · rw [List.drop_eq_nil_iff.2 (Nat.le_of_not_lt hlt), runsFrom]
      exact .stop (Nat.le_of_not_lt hlt)

theorem lists_iff {items : List (Except EncodingError BitRun)} :
    Lists p 0 items ↔ items = runs p := by
  constructor
  · exact fun h => h.eq_runsFrom
  · rintro rfl
    exact lists_runsFrom p 0

end

/-- The loop over a text ends. Pattern characters alone are divided into runs. Where the text has
another character, the runs divide what is in front of the first one, and a fault of the text is
the one item behind them. -/
theorem runs_partition (t : Text) :
    (∀ items, Lists t 0 items ↔ items = runs t) ∧
    ((∀ c ∈ t, isPatternChar c = true) → ∃ rs, IsPartition t 0 rs ∧ runs t = rs.map .ok) ∧
    ((∃ c ∈ t, isPatternChar c = false) → ∃ rs,
      IsPartition (t.takeWhile isPatternChar) 0 rs ∧
        runs (t.takeWhile isPatternChar) = rs.map .ok ∧
        runs t = rs.map .ok ++ [.error (.format .patternCharacter t)]) := by
  have hfront : ∀ c ∈ t.takeWhile isPatternChar, isPatternChar c = true := fun c hc =>
    List.mem_takeWhile_imp hc
  have hrest : ∀ c ∈ (t.dropWhile isPatternChar).head?, isPatternChar c = false := by
    intro c hc
    have hstop := List.head?_dropWhile_not isPatternChar t
    rwa [Option.mem_def.1 hc] at hstop
  obtain ⟨rs, hrs, hruns, hwhole⟩ := exists_runs hfront hrest
  rw [List.takeWhile_append_dropWhile] at hwhole
  refine ⟨fun items => lists_iff, fun hall => ?_, fun ⟨c, hc, hother⟩ => ⟨rs, hrs, hruns, ?_⟩⟩
  · rw [List.takeWhile_eq_self_iff.2 hall] at hrs hruns
    exact ⟨rs, hrs, hruns⟩
  · have hne : t.dropWhile isPatternChar ≠ [] := by
      intro hnil
      simp [List.dropWhile_eq_nil_iff.1 hnil c hc] at hother
    rw [hwhole, if_neg hne]

theorem runs_partition_accented : (∃ c ∈ "00é1".toList, isPatternChar c = false) ∧
    ∃ rs, IsPartition "00".toList 0 rs ∧ runs "00é1".toList =
      rs.map .ok ++ [.error (.format .patternCharacter "00é1".toList)] := by
  have hother : ∃ c ∈ "00é1".toList, isPatternChar c = false := ⟨'é', by decide, rfl⟩
  obtain ⟨-, -, hfault⟩ := runs_partition "00é1".toList
  obtain ⟨rs, hrs, -, hruns⟩ := hfault hother
  exact ⟨hother, rs, hrs, hruns⟩

end Pattern
end X86Encoding
