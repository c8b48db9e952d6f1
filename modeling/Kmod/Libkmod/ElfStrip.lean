import Kmod.Libkmod.Modinfo

/-!
# Stripping versions

To insert a module in spite of its version, `kmod_elf_strip` makes a copy of the file
without what the kernel checks. For the versions of symbols it clears `SHF_ALLOC` in the
header of the section `__versions`; for the version magic it clears the string of
`.modinfo` that starts with `vermagic=`.

The scan for that string takes the length of a string with `strlen`. That is right for
the strings that end in the section. Nothing says that the last one does, and from there
on `strlen` reads, and `memset` clears, what lies behind the section.
-/

namespace Kmod

open Kmod.Memory Kmod.ByteScan Kmod.Segments

/-! ## The source -/

/-- `kmod_elf_get_section` from some section on: its index, offset and size. -/
def kmodElfGetSectionFrom (elf : KmodElf) (name : CStr) :
    List Nat → Except Fault (Except Int (Nat × Nat × Nat))
  | [] => .ok (.error (-ENODATA))
  | i :: is => do
    match ← elfGetSectionInfo toLocals elf i with
    | .error _ => kmodElfGetSectionFrom elf name is
    | .ok (_, info) => do
      let eq ← streqAt elf.memory name info.name
      if eq = false then kmodElfGetSectionFrom elf name is
      else .ok (.ok (i, info.offset, info.size))

/-- `kmod_elf_get_section` -/
def kmodElfGetSection (elf : KmodElf) (name : CStr) :
    Except Fault (Except Int (Nat × Nat × Nat)) :=
  kmodElfGetSectionFrom elf name (List.range' 1 (elf.sectionCount - 1))

/-- `elf_set_uint` -/
def elfSetUint (elf : KmodElf) (offset size value : Nat) (changed : List UInt8) :
    Except Fault (List UInt8) :=
  if size ≤ 8 then inBlock (putRange changed offset (bytesOf elf.msb size value))
  else .error .assertFailed

def shFlags : Bool → ElfField := field 8 4 8 8

/-- `elf_strip_versions_section`; the mask is `~(uint64_t)SHF_ALLOC`. -/
def elfStripVersionsSection (elf : KmodElf) (changed : List UInt8) :
    Except Fault (Except Int (List UInt8)) := do
  match ← kmodElfGetSection elf (cstr "__versions") with
  | .error err => .ok (if err = -ENODATA then .ok changed else .error err)
  | .ok (idx, _, _) => do
    let off ← elfGetSectionHeaderOffset elf idx
    let off := u64 (off + (shFlags elf.x32).offset)
    let size := (shFlags elf.x32).size
    let val ← elfGetUint elf off size
    let changed ← elfSetUint elf off size (val &&& 0xfffffffffffffffd) changed
    .ok (.ok changed)

def vermagicStr : CStr := cstr "vermagic="

/--
The loop of `elf_strip_vermagic`: the offset in the file of the string that is cleared,
and its length. Every round moves `i`, so `size` of them are enough.
-/
def findVermagic (mem : List UInt8) (strings size : Nat) : Nat → Nat → Traced (Option (Nat × Nat))
  | 0, _ => pure none
  | fuel + 1, i =>
    if i < size then do
      let c ← readByte mem (strings + i)
      if c = 0 then findVermagic mem strings size fuel (i + 1)
      else if i + 1 ≥ size then findVermagic mem strings size fuel (i + 1)
      else if i + vermagicStr.length ≥ size then findVermagic mem strings size fuel (i + 1)
      else do
        let starts ← strstartswith mem vermagicStr (strings + i)
        -- either way the next thing is its length
        let len ← strlen mem (strings + i)
        if starts = false then findVermagic mem strings size fuel (i + len + 1)
        else pure (some (strings + i, len))
    else pure none

/-- The string that was found is cleared in the copy. -/
def clearVermagic (changed : List UInt8) :
    Option (Nat × Nat) → Except Fault (Except Int (List UInt8))
  | none => .ok (.error (-ENODATA))
  | some (off, len) => do
    let changed ← inBlock (putRange changed off (List.replicate len 0))
    .ok (.ok changed)

/-- `elf_strip_vermagic` -/
def elfStripVermagic (behind : List UInt8) (elf : KmodElf) (changed : List UInt8) :
    Traced (Except Fault (Except Int (List UInt8))) :=
  let sec := elf.sections .modinfo
  if sec.offset = 0 then pure (.ok (.ok changed))
  else do
    let (strings, size) ← skipPadding (elf.mapped behind) sec.offset sec.size
    if size ≤ 1 then pure (.ok (.ok changed))
    else do
      let found ← findVermagic (elf.mapped behind) strings size size 0
      pure (clearVermagic changed found)

def KMOD_INSERT_FORCE_VERMAGIC : Nat := 1
def KMOD_INSERT_FORCE_MODVERSION : Nat := 2

/-- `kmod_elf_strip`; `memdup` is whether there is memory for the copy. -/
def kmodElfStrip (memdup : Bool) (behind : List UInt8) (elf : KmodElf) (flags : Nat) :
    Except Fault (Except Int (List UInt8)) :=
  if flags &&& (KMOD_INSERT_FORCE_MODVERSION ||| KMOD_INSERT_FORCE_VERMAGIC) = 0 then
    .error .assertFailed
  else if memdup = false then .ok (.error (-ENOMEM))
  else do
    let changed := elf.memory.take elf.size
    let r ← (if flags &&& KMOD_INSERT_FORCE_MODVERSION ≠ 0 then elfStripVersionsSection elf changed
      else .ok (.ok changed))
    match r with
    | .error err => .ok (.error err)
    | .ok changed =>
      if flags &&& KMOD_INSERT_FORCE_VERMAGIC ≠ 0 then (elfStripVermagic behind elf changed).val
      else .ok (.ok changed)

/-! ## The scan -/

/-- The first string that starts with `vermagic=`, as the scan finds it. -/
structure FirstVermagic (l pre w post : List UInt8) : Prop extends Cut 0 l pre w post where
  nul : 0 ∉ w
  starts : vermagicStr <+: w
  room : vermagicStr.length < w.length + post.length
  first : ∀ s ∈ segments 0 pre, ¬ vermagicStr <+: s

/-- The string is the first one there is. -/
theorem firstVermagic_front {l w post : List UInt8} (hl : l = w ++ post)
    (hpost : post = [] ∨ ∃ b, post = 0 :: b) (hw : 0 ∉ w) (hpre : vermagicStr <+: w)
    (hroom : vermagicStr.length < w.length + post.length) : FirstVermagic l [] w post where
  eq := hl
  before := .inl rfl
  behind := hpost
  nul := hw
  starts := hpre
  room := hroom
  first := fun _ hs => absurd hs List.not_mem_nil

theorem FirstVermagic.ne_nil {l pre w post : List UInt8} (h : FirstVermagic l pre w post) :
    w ≠ [] := by
  rintro rfl
  exact absurd h.starts.length_le (by decide)

/-- The last string of a section that does not end with a NUL. -/
theorem FirstVermagic.openTail_last {l pre w : List UInt8} (h : FirstVermagic l pre w []) :
    openTail 0 l = w := by
  rw [h.eq, List.append_nil, h.before.openTail_append, openTail_word h.nul]

/-- The scan finds no such string. -/
def NoVermagic (l : List UInt8) : Prop :=
  (∀ s ∈ segments 0 (closedPart 0 l), ¬ vermagicStr <+: s) ∧
    ¬ (vermagicStr <+: openTail 0 l ∧ vermagicStr.length < (openTail 0 l).length)

/-- The scan takes the length of a string that does not end in the section. -/
def RunsOut (l : List UInt8) : Prop :=
  vermagicStr.length < (openTail 0 l).length ∧
    ∀ s ∈ segments 0 (closedPart 0 l), ¬ vermagicStr <+: s

theorem nul_not_mem_vermagicStr : 0 ∉ vermagicStr := by decide

/-- A string with its NUL starts with `v` if the string does. -/
theorem prefix_append_nul_iff {v w l : List UInt8} (hv : 0 ∉ v) : v <+: w ++ 0 :: l ↔ v <+: w := by
  refine ⟨?_, fun h => h.trans (List.prefix_append _ _)⟩
  intro h
  rcases Nat.lt_or_ge w.length v.length with hlt | hle
  · have hnul : w ++ [0] <+: v := by
      refine List.prefix_of_prefix_length_le ?_ h (by rw [List.length_append]; exact hlt)
      exact ⟨l, by simp⟩
    exact absurd (hnul.subset (by simp)) hv
  · exact List.prefix_of_prefix_length_le h (List.prefix_append _ _) hle

section
variable {mem : List UInt8} {lo hi strings size : Nat}

theorem findVermagic_end {i : Nat} (hend : size ≤ i) (fuel : Nat) :
    findVermagic mem strings size fuel i = pure none := by
  cases fuel with
  | zero => rfl
  | succ fuel => exact if_neg (by omega)

/-- Where the section ends too soon, the scan goes on byte by byte. -/
theorem findVermagic_short : ∀ (l : List UInt8) (fuel i : Nat), l.length ≤ fuel →
    i + l.length = size → l.length ≤ vermagicStr.length → l <+: mem.drop (strings + i) →
    lo ≤ strings + i → hi = strings + size →
    Traced.Agree lo hi (findVermagic mem strings size fuel i) (pure none)
  | [], fuel, i, _, hsize, _, _, _, _ => by
    rw [findVermagic_end (show size ≤ i by simpa using hsize.ge)]
    exact .refl _
  | b :: l, fuel, i, hfuel, hsize, hshort, h, hlo, hhi => by
    rw [List.length_cons] at hfuel hsize hshort
    obtain ⟨fuel, rfl⟩ : ∃ f, fuel = f + 1 := ⟨fuel - 1, by omega⟩
    have hrest := findVermagic_short l fuel (i + 1) (by omega) (by omega) (by omega)
      (prefix_drop_succ h) (by omega) hhi
    rw [findVermagic, if_pos (by omega)]
    refine (agree_readByte h hlo (by omega) _).trans ?_
    rw [if_pos (show i + vermagicStr.length ≥ size by omega)]
    split
    · exact hrest
    · split <;> exact hrest

/-- The scan steps over NULs. -/
theorem findVermagic_nuls {l : List UInt8} (fuel : Nat) : ∀ (k i : Nat),
    List.replicate k 0 ++ l <+: mem.drop (strings + i) → i + k ≤ size → lo ≤ strings + i →
    hi = strings + size →
    Traced.Agree lo hi (findVermagic mem strings size (fuel + k) i)
      (findVermagic mem strings size fuel (i + k))
  | 0, i, _, _, _, _ => .refl _
  | k + 1, i, h, hsize, hlo, hhi => by
    rw [List.replicate_succ, List.cons_append] at h
    have hrest := findVermagic_nuls fuel k (i + 1) (prefix_drop_succ h) (by omega) (by omega) hhi
    rw [show i + 1 + k = i + (k + 1) by omega] at hrest
    rw [← Nat.add_assoc, findVermagic, if_pos (by omega)]
    refine (agree_readByte h hlo (by omega) _).trans ?_
    rw [if_pos rfl]
    exact hrest

/-- The scan at a string, with enough of the section left. -/
theorem findVermagic_string {w l : List UInt8} (hw : w ≠ []) (h0 : 0 ∉ w) (fuel i : Nat)
    (h : w ++ l <+: mem.drop (strings + i)) (hsize : i + (w ++ l).length = size)
    (hroom : vermagicStr.length < (w ++ l).length) (hlo : lo ≤ strings + i)
    (hhi : hi = strings + size) :
    Traced.Agree lo hi (findVermagic mem strings size (fuel + 1) i)
      (strlen mem (strings + i) >>= fun len =>
        if vermagicStr <+: w ++ l then pure (some (strings + i, len))
        else findVermagic mem strings size fuel (i + len + 1)) := by
  cases w with
  | nil => exact absurd rfl hw
  | cons b w =>
    rw [List.mem_cons, not_or] at h0
    have hstarts := strstartswith_spec vermagicStr _ _ h hroom.le hlo
      (show strings + i + vermagicStr.length ≤ hi by omega)
    have hlen : vermagicStr.length = 9 := rfl
    rw [findVermagic, if_pos (by rw [← hsize]; simp)]
    refine (agree_readByte h hlo (by simp at hsize; omega) _).trans ?_
    rw [if_neg (Ne.symm h0.1), if_neg (by omega), if_neg (by omega)]
    refine (Traced.agree_bind hstarts.2 hstarts.1 _).trans ?_
    by_cases hpre : vermagicStr <+: b :: w ++ l
    · simp only [hpre, decide_true, Bool.true_eq_false, if_false, if_true]
      exact .refl _
    · simp only [hpre, decide_false, if_true, if_false]
      exact .refl _

/-- What is known about the scan from a place on, with `l` left of the section. -/
structure Scanned (mem : List UInt8) (lo hi p : Nat) (l : List UInt8)
    (r : Traced (Option (Nat × Nat))) : Prop where
  val : (∃ pre w post, FirstVermagic l pre w post ∧
      r.val = some (p + pre.length, (front (mem.drop (p + pre.length))).length)) ∨
    (NoVermagic l ∧ r.val = none)
  within : r.Within lo hi ↔ ¬ RunsOut l

theorem Scanned.of_agree {p : Nat} {l : List UInt8} {r r' : Traced (Option (Nat × Nat))}
    (h : Scanned mem lo hi p l r') (hagree : Traced.Agree lo hi r r') : Scanned mem lo hi p l r :=
  ⟨hagree.1 ▸ h.val, hagree.2.trans h.within⟩

/-- There is no room for the string. -/
theorem scanned_short {l : List UInt8} (hshort : l.length ≤ vermagicStr.length) (p : Nat) :
    Scanned mem lo hi p l (pure none) := by
  have htail : (openTail 0 l).length ≤ vermagicStr.length :=
    (List.rtakeWhile_suffix _ _).length_le.trans hshort
  refine ⟨.inr ⟨⟨?_, ?_⟩, rfl⟩, ?_⟩
  · intro s hs hpre
    have hlt := (closed_closedPart 0 l).length_lt_of_mem hs
    have hle : (closedPart 0 l).length ≤ l.length := (List.rdropWhile_prefix _ _).length_le
    have hlen := hpre.length_le
    omega
  · exact fun h => absurd h.2 (by omega)
  · rw [Traced.within_pure, true_iff]
    exact fun h => absurd h.1 (by omega)

/-- Behind strings that are not the one. -/
theorem Scanned.behind {p : Nat} {a l : List UInt8} {r : Traced (Option (Nat × Nat))}
    (h : Scanned mem lo hi (p + a.length) l r) (ha : Closed 0 a)
    (hnot : ∀ s ∈ segments 0 a, ¬ vermagicStr <+: s) : Scanned mem lo hi p (a ++ l) r := by
  have hclosed : (∀ s ∈ segments 0 (closedPart 0 (a ++ l)), ¬ vermagicStr <+: s) ↔
      ∀ s ∈ segments 0 (closedPart 0 l), ¬ vermagicStr <+: s := by
    rw [ha.closedPart_append, ha.segments_append, List.forall_mem_append, and_iff_right hnot]
  refine ⟨?_, ?_⟩
  · rcases h.val with ⟨pre, w, post, hfirst, hval⟩ | ⟨hno, hval⟩
    · left
      refine ⟨a ++ pre, w, post, ?_, ?_⟩
      · refine { hfirst with toCut := hfirst.toCut.append ha, first := ?_ }
        rw [ha.segments_append]
        exact List.forall_mem_append.mpr ⟨hnot, hfirst.first⟩
      · rw [hval, List.length_append, ← Nat.add_assoc]
    · right
      unfold NoVermagic
      rw [hclosed, ha.openTail_append]
      exact ⟨hno, hval⟩
  · rw [h.within]
    unfold RunsOut
    rw [hclosed, ha.openTail_append]

/-- The last string does not end, and is long enough to be looked at. -/
theorem scanned_open {w : List UInt8} (h0 : 0 ∉ w) {fuel i : Nat}
    (h : w <+: mem.drop (strings + i)) (hsize : i + w.length = size)
    (hroom : vermagicStr.length < w.length) (hlo : lo ≤ strings + i) (hhi : hi = strings + size) :
    Scanned mem lo hi (strings + i) w (findVermagic mem strings size (fuel + 1) i) := by
  have hw : w ≠ [] := List.ne_nil_of_length_pos (by omega)
  have hstring : Traced.Agree lo hi _ _ := findVermagic_string hw h0 fuel i
    (show w ++ [] <+: _ by rwa [List.append_nil]) (by rwa [List.append_nil])
    (by rwa [List.append_nil]) hlo hhi
  have hlen : w.length ≤ (front (mem.drop (strings + i))).length := by
    rw [front_drop h0 h, List.length_append]
    exact Nat.le_add_right _ _
  have hout : ¬ (strlen mem (strings + i)).Within lo hi := by
    rw [within_strlen]
    omega
  have hruns : RunsOut w := by
    unfold RunsOut
    rw [openTail_word h0, closedPart_word h0]
    exact ⟨hroom, fun s hs => absurd hs List.not_mem_nil⟩
  refine Scanned.of_agree ⟨?_, ?_⟩ hstring
  · rw [Traced.val_bind, List.append_nil]
    by_cases hpre : vermagicStr <+: w
    · left
      rw [if_pos hpre]
      have hfirst : FirstVermagic w [] w [] :=
        firstVermagic_front (List.append_nil w).symm (.inl rfl) h0 hpre hroom
      exact ⟨[], w, [], hfirst, rfl⟩
    · right
      rw [if_neg hpre, findVermagic_end]
      · refine ⟨⟨?_, ?_⟩, rfl⟩
        · rw [closedPart_word h0]
          exact fun s hs => absurd hs List.not_mem_nil
        · rw [openTail_word h0]
          exact fun h => hpre h.1
      · show size ≤ i + (front (mem.drop (strings + i))).length + 1
        omega
  · rw [Traced.within_bind]
    exact ⟨fun h => absurd h.1 hout, fun h => absurd hruns h⟩

/-- A string with NULs behind it. -/
theorem scanned_round {w l : List UInt8} {k fuel i : Nat} (hw : w ≠ []) (h0 : 0 ∉ w)
    (h : w ++ (List.replicate (k + 1) 0 ++ l) <+: mem.drop (strings + i))
    (hsize : i + (w ++ (List.replicate (k + 1) 0 ++ l)).length = size)
    (hroom : vermagicStr.length < (w ++ (List.replicate (k + 1) 0 ++ l)).length)
    (hlo : lo ≤ strings + i) (hhi : hi = strings + size)
    (ih : Scanned mem lo hi (strings + i + (w ++ List.replicate (k + 1) 0).length) l
      (findVermagic mem strings size fuel (i + w.length + (k + 1)))) :
    Scanned mem lo hi (strings + i) (w ++ (List.replicate (k + 1) 0 ++ l))
      (findVermagic mem strings size (fuel + k + 1) i) := by
  have hstring : Traced.Agree lo hi _ _ :=
    findVermagic_string hw h0 (fuel + k) i h hsize hroom hlo hhi
  have hfront : front (mem.drop (strings + i)) = w := front_drop_of_nul h0 h
  rw [List.length_append, List.length_append, List.length_replicate] at hsize
  have hin : (strlen mem (strings + i)).Within lo hi := by
    rw [within_strlen, hfront]
    omega
  have hlen : (strlen mem (strings + i)).val = w.length := congrArg List.length hfront
  have hiff : vermagicStr <+: w ++ (List.replicate (k + 1) 0 ++ l) ↔ vermagicStr <+: w :=
    prefix_append_nul_iff nul_not_mem_vermagicStr
  have hagree := hstring.trans (Traced.agree_bind hin hlen _)
  by_cases hpre : vermagicStr <+: w
  · rw [if_pos (hiff.mpr hpre)] at hagree
    rw [List.length_append] at hroom
    have hfirst : FirstVermagic _ [] w (List.replicate (k + 1) 0 ++ l) :=
      firstVermagic_front rfl (.inr ⟨List.replicate k 0 ++ l, rfl⟩) h0 hpre hroom
    refine Scanned.of_agree ⟨.inl ⟨[], w, _, hfirst, ?_⟩, ?_⟩ hagree
    · rw [List.length_nil, Nat.add_zero, hfront]
      rfl
    · rw [Traced.within_pure, true_iff]
      intro hruns
      refine hruns.2 w ?_ hpre
      rw [closedPart_round w k.succ_pos, segments_round hw h0 k.succ_pos]
      exact List.mem_cons_self
  · rw [if_neg (mt hiff.mp hpre)] at hagree
    have hnuls : Traced.Agree lo hi (findVermagic mem strings size (fuel + k) (i + w.length + 1))
        (findVermagic mem strings size fuel (i + w.length + 1 + k)) := by
      refine findVermagic_nuls fuel k (i + w.length + 1) (l := l) ?_ (by omega) (by omega) hhi
      have hbehind := prefix_drop_succ (prefix_drop_add h)
      rwa [Nat.add_assoc strings, Nat.add_assoc strings] at hbehind
    rw [show i + w.length + 1 + k = i + w.length + (k + 1) by omega] at hnuls
    rw [← List.append_assoc]
    refine Scanned.behind (ih.of_agree (hagree.trans hnuls)) (closed_round w k.succ_pos) ?_
    intro s hs
    have hseg := segments_round hw h0 k.succ_pos []
    rw [List.append_nil, segments_nil] at hseg
    rw [hseg, List.mem_singleton] at hs
    rwa [hs]

theorem findVermagic_spec (hlo : lo ≤ strings) (hhi : hi = strings + size) :
    ∀ l : List UInt8, l.head? ≠ some 0 → ∀ fuel i, l.length ≤ fuel → i + l.length = size →
      l <+: mem.drop (strings + i) →
      Scanned mem lo hi (strings + i) l (findVermagic mem strings size fuel i) := by
  refine rounds_induction ?_ ?_ ?_
  · intro fuel i _ hsize _
    rw [findVermagic_end (show size ≤ i by simpa using hsize.ge)]
    exact scanned_short (Nat.zero_le _) _
  · intro w hw h0 fuel i hfuel hsize h
    rcases Nat.lt_or_ge vermagicStr.length w.length with hroom | hshort
    · obtain ⟨fuel, rfl⟩ : ∃ f, fuel = f + 1 := ⟨fuel - 1, by omega⟩
      exact scanned_open h0 h hsize hroom (by omega) hhi
    · exact (scanned_short hshort _).of_agree
        (findVermagic_short w fuel i hfuel hsize hshort h (by omega) hhi)
  · intro w k l hw h0 hk hl ih fuel i hfuel hsize h
    rcases Nat.lt_or_ge vermagicStr.length (w ++ (List.replicate k 0 ++ l)).length with hroom | hshort
    · obtain ⟨k, rfl⟩ : ∃ k', k = k' + 1 := ⟨k - 1, by omega⟩
      have hlen : (w ++ (List.replicate (k + 1) 0 ++ l)).length =
          w.length + (k + 1 + l.length) := by
        rw [List.length_append, List.length_append, List.length_replicate]
      have hpos := List.length_pos_of_ne_nil hw
      obtain ⟨fuel, rfl⟩ : ∃ f, fuel = f + k + 1 := ⟨fuel - k - 1, by omega⟩
      have hrest : l <+: mem.drop (strings + (i + w.length + (k + 1))) := by
        have hbehind := prefix_drop_add (prefix_drop_add h)
        rw [List.length_replicate] at hbehind
        rwa [Nat.add_assoc strings, Nat.add_assoc strings] at hbehind
      have hscan := ih fuel (i + w.length + (k + 1)) (by omega) (by omega) hrest
      refine scanned_round hw h0 h hsize hroom (by omega) hhi ?_
      rw [List.length_append, List.length_replicate]
      rwa [Nat.add_assoc i, ← Nat.add_assoc strings, ← Nat.add_assoc i] at hscan
    · exact (scanned_short hshort _).of_agree
        (findVermagic_short _ fuel i hfuel hsize hshort h (by omega) hhi)

/-- The scan of a section, behind its padding. -/
theorem findVermagic_section {l : List UInt8} {off : Nat} (h : l <+: mem.drop off)
    (hhi : hi = off + l.length) :
    Scanned mem off hi off l
      (findVermagic mem (off + (l.length - (unpadded l).length)) (unpadded l).length
        (unpadded l).length 0) := by
  obtain ⟨k, hk⟩ := exists_padding l
  have hlen := congrArg List.length hk
  rw [List.length_append] at hlen
  have hscan : Scanned mem off hi _ _ _ := findVermagic_spec (Nat.le_add_right off _)
    (show hi = off + (l.length - (unpadded l).length) + (unpadded l).length by omega)
    (unpadded l) (unpadded_head l) _ 0 le_rfl (Nat.zero_add _) (unpadded_mapped h)
  have hoff : l.length - (unpadded l).length = (List.replicate k (0 : UInt8)).length := by omega
  rw [Nat.add_zero, hoff] at hscan
  rw [hoff]
  have hbehind := hscan.behind (closed_replicate 0 k)
    (by rw [segments_replicate]; exact fun s hs => absurd hs List.not_mem_nil)
  rwa [← hk] at hbehind

end

/-! ## What the readers of `.modinfo` read -/

section
variable {elf : KmodElf}

/-- Nothing is read where nothing is left of the section. -/
theorem elfStripVermagic_padding (hv : elf.Valid) (behind changed : List UInt8)
    (hoff : (elf.sections .modinfo).offset ≠ 0)
    (h1 : (unpadded (elf.sectionBytes .modinfo)).length ≤ 1) :
    (elfStripVermagic behind elf changed).val = .ok (.ok changed) ∧
      (elfStripVermagic behind elf changed).Within (elf.sections .modinfo).offset
        ((elf.sections .modinfo).offset + (elf.sections .modinfo).size) := by
  have hpre := hv.sectionBytes_mapped .modinfo behind
  have hlen := hv.length_sectionBytes .modinfo
  obtain ⟨hskipin, ⟨_, hskip⟩ | ⟨h1', _⟩⟩ := skipPadding_spec _ _ hpre le_rfl le_rfl
  · rw [hlen] at hskip hskipin
    unfold elfStripVermagic
    dsimp only
    rw [if_neg hoff, Traced.within_bind, Traced.val_bind]
    cases hpair : (skipPadding (elf.mapped behind) (elf.sections .modinfo).offset
        (elf.sections .modinfo).size).val with | mk strings size =>
    rw [hpair] at hskip
    dsimp only
    rw [if_pos hskip]
    exact ⟨rfl, hskipin, by simp⟩
  · omega

/-- The scan of the section, if there is something to scan. -/
theorem elfStripVermagic_scan (hv : elf.Valid) (behind changed : List UInt8)
    (hoff : (elf.sections .modinfo).offset ≠ 0)
    (h1 : 1 < (unpadded (elf.sectionBytes .modinfo)).length) :
    ∃ r, Scanned (elf.mapped behind) (elf.sections .modinfo).offset
        ((elf.sections .modinfo).offset + (elf.sections .modinfo).size)
        (elf.sections .modinfo).offset (elf.sectionBytes .modinfo) r ∧
      ((elfStripVermagic behind elf changed).Within (elf.sections .modinfo).offset
        ((elf.sections .modinfo).offset + (elf.sections .modinfo).size) ↔
          r.Within (elf.sections .modinfo).offset
            ((elf.sections .modinfo).offset + (elf.sections .modinfo).size)) ∧
      (elfStripVermagic behind elf changed).val = clearVermagic changed r.val := by
  have hpre := hv.sectionBytes_mapped .modinfo behind
  have hlen := hv.length_sectionBytes .modinfo
  refine ⟨_, findVermagic_section hpre (by rw [hlen]), ?_⟩
  obtain ⟨hskipin, ⟨h1', _⟩ | ⟨_, hskip⟩⟩ := skipPadding_spec _ _ hpre le_rfl le_rfl
  · omega
  · rw [hlen] at hskip hskipin
    unfold elfStripVermagic
    dsimp only
    rw [if_neg hoff, Traced.within_bind, Traced.val_bind, hskip, hlen]
    dsimp only
    rw [if_neg (by omega), Traced.within_bind, Traced.val_bind, and_iff_right hskipin]
    exact ⟨by simp, rfl⟩

/--
There is nothing to read, or the last string does not end and the scan for `vermagic=`
does not take its length: it is too short, or there is such a string before it.
-/
def ModinfoReadable (elf : KmodElf) : Prop :=
  (elf.sections .modinfo).offset = 0 ∨ (unpadded (elf.sectionBytes .modinfo)).length ≤ 1 ∨
    (openTail 0 (elf.sectionBytes .modinfo) ≠ [] ∧
      ((openTail 0 (elf.sectionBytes .modinfo)).length ≤ vermagicStr.length ∨
        ∃ s ∈ segments 0 (closedPart 0 (elf.sectionBytes .modinfo)), vermagicStr <+: s))

/--
**When the readers of `.modinfo` keep to the section.** A section that ends with a NUL is
left by one byte, and one that does not by the rest of its last string.
-/
theorem modinfoReaders_within_iff {allocated : Bool} {memory : List UInt8} {elf : KmodElf}
    (hnew : kmodElfNew allocated memory = .ok (.ok elf)) (malloc : Bool)
    (behind changed : List UInt8) :
    ((kmodElfGetModinfoStrings malloc behind elf).Within (elf.sections .modinfo).offset
          ((elf.sections .modinfo).offset + (elf.sections .modinfo).size) ∧
        (elfStripVermagic behind elf changed).Within (elf.sections .modinfo).offset
          ((elf.sections .modinfo).offset + (elf.sections .modinfo).size)) ↔
      ModinfoReadable elf := by
  obtain ⟨hv, _⟩ := valid_of_kmodElfNew hnew
  unfold ModinfoReadable
  by_cases hoff : (elf.sections .modinfo).offset = 0
  · have hstrings : kmodElfGetModinfoStrings malloc behind elf =
      pure (.error (-ENODATA)) := if_pos hoff
    have hstrip : elfStripVermagic behind elf changed = pure (.ok (.ok changed)) := if_pos hoff
    rw [hstrings, hstrip]
    simp [hoff]
  · rw [kmodElfGetModinfoStrings_within hv malloc behind hoff]
    rcases Nat.lt_or_ge 1 (unpadded (elf.sectionBytes .modinfo)).length with h1 | h1
    · obtain ⟨r, hscan, hin, _⟩ := elfStripVermagic_scan hv behind changed hoff h1
      rw [hin, hscan.within]
      unfold RunsOut
      have hlong : ¬ (unpadded (elf.sectionBytes .modinfo)).length ≤ 1 := by omega
      simp only [hoff, hlong, false_or, not_and_or, Nat.not_lt, not_forall, not_not, exists_prop]
    · have hpad := elfStripVermagic_padding hv behind changed hoff h1
      simp [h1, hpad.2]

/-- The usual section: its strings end with a NUL, and so does the file. -/
theorem modinfoReaders_pastEnd :
    kmodElfNew true (modinfoFile (cstr "a=b" ++ [0])) = .ok (.ok (modinfoElf (cstr "a=b" ++ [0]))) ∧
      (modinfoFile (cstr "a=b" ++ [0])).length = 186 ∧
      186 ∈ (kmodElfGetModinfoStrings true [] (modinfoElf (cstr "a=b" ++ [0]))).reads := by
  decide +kernel

/-- A last string that does not end is not read beyond the section if it is short. -/
theorem modinfoReaders_within_open :
    kmodElfNew true (modinfoFile paddedInfo) = .ok (.ok (modinfoElf paddedInfo)) ∧
      (kmodElfGetModinfoStrings true [7] (modinfoElf paddedInfo)).Within 182 191 ∧
      (elfStripVermagic [7] (modinfoElf paddedInfo) (modinfoFile paddedInfo)).Within 182 191 := by
  have hnew : kmodElfNew true (modinfoFile paddedInfo) = .ok (.ok (modinfoElf paddedInfo)) := by
    decide +kernel
  refine ⟨hnew, (modinfoReaders_within_iff hnew true [7] (modinfoFile paddedInfo)).mpr ?_⟩
  exact .inr (.inr ⟨by decide +kernel, .inl (by decide +kernel)⟩)

/-! ## Stripping the version magic -/

/-- The copy of the file around a section. -/
theorem KmodElf.Valid.copy_split (hv : elf.Valid) (sec : KmodElfSection) :
    ∃ a b, elf.memory.take elf.size = a ++ (elf.sectionBytes sec ++ b) ∧
      a.length = (elf.sections sec).offset := by
  have hin := hv.sections_inFile sec
  have hle := hv.le
  refine ⟨elf.memory.take (elf.sections sec).offset,
    (elf.memory.take elf.size).drop ((elf.sections sec).offset + (elf.sections sec).size), ?_, ?_⟩
  · unfold KmodElf.sectionBytes bytesAt
    conv_lhs => rw [← List.take_append_drop (elf.sections sec).offset (elf.memory.take elf.size)]
    congr 1
    · rw [List.take_take]
      congr 1
      omega
    · conv_lhs => rw [← List.take_append_drop (elf.sections sec).size (List.drop _ _),
        List.drop_drop]
      congr 1
      rw [List.drop_take, List.take_take]
      congr 1
      omega
  · rw [List.length_take]
    omega

/-- Clearing a string that ends in the section. -/
theorem putRange_cut {l pre w post a b : List UInt8} (h : Cut 0 l pre w post) :
    putRange (a ++ (l ++ b)) (a.length + pre.length) (List.replicate w.length 0) =
      some (a ++ (pre ++ (List.replicate w.length 0 ++ post) ++ b)) := by
  have hput := putRange_append (a ++ pre) (w ++ (post ++ b)) (List.replicate w.length 0) (by simp)
  rw [List.length_append] at hput
  rw [h.eq]
  simpa using hput

/-- The string that is found ends in the section, if the section does with a NUL. -/
theorem FirstVermagic.exists_nul {l pre w post : List UInt8} (h : FirstVermagic l pre w post)
    (hclosed : openTail 0 l = []) : ∃ b, post = 0 :: b := by
  rcases h.behind with rfl | hb
  · exact absurd (h.openTail_last.symm.trans hclosed) h.ne_nil
  · exact hb

/-- What `strlen` measures, if it ends in the section: the string. -/
theorem FirstVermagic.front_eq {pre w b : List UInt8} (hv : elf.Valid)
    (h : FirstVermagic (elf.sectionBytes .modinfo) pre w (0 :: b)) (behind : List UInt8) :
    front ((elf.mapped behind).drop ((elf.sections .modinfo).offset + pre.length)) = w := by
  have hpre := hv.sectionBytes_mapped .modinfo behind
  rw [h.eq] at hpre
  exact front_drop_of_nul h.nul (prefix_drop_add hpre)

/-- The strings are those without the one that is found. -/
theorem FirstVermagic.eraseP_segments {l pre w post : List UInt8} (h : FirstVermagic l pre w post) :
    (segments 0 l).eraseP (vermagicStr <+: ·) =
      segments 0 (pre ++ (List.replicate w.length 0 ++ post)) := by
  rw [h.toCut.segments_eq h.ne_nil h.nul, h.toCut.segments_clear, List.eraseP_append_right,
    List.eraseP_cons_of_pos (by simpa using h.starts)]
  intro s hs
  simpa using h.first s hs

/-- `kmod_elf_strip` for the version magic alone. -/
theorem kmodElfStrip_vermagic_eq (behind : List UInt8) (elf : KmodElf) :
    kmodElfStrip true behind elf KMOD_INSERT_FORCE_VERMAGIC =
      (elfStripVermagic behind elf (elf.memory.take elf.size)).val := by
  rfl

end

/--
**Stripping the version magic removes one string.** In a section that ends with a NUL it
is the first string that starts with `vermagic=`; if there is none, the error is
`-ENODATA`.
-/
theorem kmodElfStrip_vermagic {allocated : Bool} {memory : List UInt8} {elf : KmodElf}
    (hnew : kmodElfNew allocated memory = .ok (.ok elf))
    (hoff : (elf.sections .modinfo).offset ≠ 0)
    (hnul : (elf.sectionBytes .modinfo).getLast? = some 0)
    (h1 : 1 < (unpadded (elf.sectionBytes .modinfo)).length) (behind : List UInt8) :
    kmodElfStrip false behind elf KMOD_INSERT_FORCE_VERMAGIC = .ok (.error (-ENOMEM)) ∧
    (kmodElfStrip true behind elf KMOD_INSERT_FORCE_VERMAGIC = .ok (.error (-ENODATA)) ↔
      ∀ s ∈ segments 0 (elf.sectionBytes .modinfo), ¬ vermagicStr <+: s) ∧
    ((∃ s ∈ segments 0 (elf.sectionBytes .modinfo), vermagicStr <+: s) →
      ∃ stripped, kmodElfStrip true behind elf KMOD_INSERT_FORCE_VERMAGIC = .ok (.ok stripped) ∧
        ∀ behind',
          GivenAs (splitModinfo (elf.mapped behind') (elf.sections .modinfo).offset
            (elf.sections .modinfo).size).val (segments 0 (elf.sectionBytes .modinfo)) ∧
          GivenAs (splitModinfo (stripped ++ behind') (elf.sections .modinfo).offset
            (elf.sections .modinfo).size).val
            ((segments 0 (elf.sectionBytes .modinfo)).eraseP (vermagicStr <+: ·))) := by
  obtain ⟨hv, _⟩ := valid_of_kmodElfNew hnew
  have hlen := hv.length_sectionBytes .modinfo
  have hclosed : openTail 0 (elf.sectionBytes .modinfo) = [] := by
    obtain ⟨a, ha⟩ := List.getLast?_eq_some_iff.mp hnul
    rw [ha, openTail_concat_eq_nil]
  have hall : closedPart 0 (elf.sectionBytes .modinfo) = elf.sectionBytes .modinfo := by
    have h := closedPart_append_openTail 0 (elf.sectionBytes .modinfo)
    rwa [hclosed, List.append_nil] at h
  refine ⟨rfl, ?_⟩
  rw [kmodElfStrip_vermagic_eq]
  obtain ⟨r, hscan, _, hval⟩ := elfStripVermagic_scan hv behind (elf.memory.take elf.size) hoff h1
  rw [hval]
  rcases hscan.val with ⟨pre, w, post, hfirst, hr⟩ | ⟨hno, hr⟩
  · obtain ⟨b, rfl⟩ := hfirst.exists_nul hclosed
    obtain ⟨x, y, hcopy, hx⟩ := hv.copy_split .modinfo
    have hput := putRange_cut (a := x) (b := y) hfirst.toCut
    rw [← hcopy, hx] at hput
    have hresult : clearVermagic (elf.memory.take elf.size) r.val =
        .ok (.ok (x ++ (pre ++ (List.replicate w.length 0 ++ 0 :: b) ++ y))) := by
      rw [hr, hfirst.front_eq hv, clearVermagic, hput]
      rfl
    have hmem : w ∈ segments 0 (elf.sectionBytes .modinfo) := by
      rw [hfirst.toCut.segments_eq hfirst.ne_nil hfirst.nul]
      simp
    rw [hresult]
    refine ⟨iff_of_false (by simp) (fun h => h w hmem hfirst.starts), fun _ => ⟨_, rfl, ?_⟩⟩
    intro behind'
    refine ⟨?_, ?_⟩
    · rw [← hlen]
      exact splitModinfo_given (hv.sectionBytes_mapped .modinfo behind') hclosed
    · have hsize : (elf.sections .modinfo).size =
          (pre ++ (List.replicate w.length 0 ++ 0 :: b)).length := by
        rw [← hlen, hfirst.eq]
        simp
      obtain ⟨htail, hany⟩ := hfirst.toCut.openTail_eq
      rw [hfirst.eraseP_segments, hsize, ← hx]
      refine splitModinfo_given ?_ ?_
      · exact ⟨y ++ behind', by simp⟩
      · rw [hany, ← htail, hclosed]
  · have hnone := hno.1
    rw [hall] at hnone
    rw [hr]
    exact ⟨iff_of_true rfl hnone, fun ⟨s, hs, hpre⟩ => absurd hpre (hnone s hs)⟩

/-- The string to strip is between others. -/
def magicInfo : List UInt8 :=
  cstr "a=b" ++ [0, 0] ++ cstr "vermagic=6" ++ [0] ++ cstr "c=d" ++ [0]

theorem kmodElfStrip_vermagic_between :
    kmodElfNew true (modinfoFile magicInfo) = .ok (.ok (modinfoElf magicInfo)) ∧
    ∃ stripped, kmodElfStrip true [] (modinfoElf magicInfo) KMOD_INSERT_FORCE_VERMAGIC =
        .ok (.ok stripped) ∧
      GivenAs (splitModinfo (stripped ++ [7]) 182 20).val [cstr "a=b", cstr "c=d"] := by
  have hnew : kmodElfNew true (modinfoFile magicInfo) = .ok (.ok (modinfoElf magicInfo)) := by
    decide +kernel
  have hsegs : (segments 0 ((modinfoElf magicInfo).sectionBytes .modinfo)).eraseP (vermagicStr <+: ·) =
      [cstr "a=b", cstr "c=d"] := by decide +kernel
  obtain ⟨stripped, hstrip, hgiven⟩ :=
    (kmodElfStrip_vermagic hnew (by decide +kernel) (by decide +kernel) (by decide +kernel) []).2.2
      (by decide +kernel)
  have hlast := (hgiven [7]).2
  rw [hsegs] at hlast
  exact ⟨hnew, stripped, hstrip, hlast⟩

/-! ## Stripping the versions of symbols -/

/-- The section can be read and has a name. -/
def sectionNamed (elf : KmodElf) (name : CStr) (i : Nat) : Bool :=
  match elfGetSectionInfo toLocals elf i with
  | .ok (.ok (_, info)) => decide (front (elf.memory.drop info.name) = name)
  | _ => false

/-- The first section with a name. -/
def firstNamed (elf : KmodElf) (name : CStr) : Option Nat :=
  (List.range' 1 (elf.sectionCount - 1)).find? (sectionNamed elf name)

/-- Where the byte with `SHF_ALLOC` of the first section `__versions` stands. -/
def flagsPlace (elf : KmodElf) : Option Nat :=
  (firstNamed elf (cstr "__versions")).map (fun i =>
    u64 (elf.sectionOffset + i * elf.sectionEntrySize) + (shFlags elf.x32).offset +
      lowPlace elf.msb (shFlags elf.x32).size)

/-- `~SHF_ALLOC`, as far as it is in that byte. -/
def notAlloc : UInt8 := 0xfd

/-- The copy with `SHF_ALLOC` of that section cleared. -/
def clearAlloc (elf : KmodElf) (changed : List UInt8) : List UInt8 :=
  (flagsPlace elf).elim changed (changed.modify · (· &&& notAlloc))

/-- `kmod_elf_get_section` gives the first section with the name. -/
theorem kmodElfGetSectionFrom_eq {elf : KmodElf} (hv : elf.Valid) {name : CStr} (hname : 0 ∉ name) :
    ∀ is, (∀ i ∈ is, 1 ≤ i ∧ i < elf.sectionCount) →
      (is.find? (sectionNamed elf name) = none ∧
        kmodElfGetSectionFrom elf name is = .ok (.error (-ENODATA))) ∨
      ∃ i info, is.find? (sectionNamed elf name) = some i ∧
        elfGetSectionInfo toLocals elf i = .ok (.ok (elf, info)) ∧
        kmodElfGetSectionFrom elf name is = .ok (.ok (i, info.offset, info.size)) := by
  intro is
  induction is with
  | nil => exact fun _ => .inl ⟨rfl, rfl⟩
  | cons i is ih =>
    intro his
    obtain ⟨⟨h1, hcount⟩, his⟩ := List.forall_mem_cons.mp his
    rcases hv.sectionInfo_cases h1 hcount with ⟨e, hr⟩ | ⟨info, hr, hterm⟩
    · have hnot : sectionNamed elf name i = false := by
        unfold sectionNamed
        rw [hr]
      rw [List.find?_cons, kmodElfGetSectionFrom, hr, ok_bind, hnot]
      exact ih his
    · have hnamed : sectionNamed elf name i =
          decide (front (elf.memory.drop info.name) = name) := by
        unfold sectionNamed
        rw [hr]
      rw [List.find?_cons, kmodElfGetSectionFrom, hr, ok_bind, hnamed]
      dsimp only
      unfold streqAt
      rw [streqTails_eq hname [] hterm, inBlock_some, ok_bind]
      cases decide (front (elf.memory.drop info.name) = name) with
      | true => exact .inr ⟨i, info, rfl, hr, rfl⟩
      | false => exact ih his

/-- The header of a section that was read lies in the file. -/
theorem sectionNamed_header {elf : KmodElf} (hs : elf.Sized) {name : CStr} {i : Nat}
    (h : sectionNamed elf name i = true) :
    elfGetSectionHeaderOffset elf i = .ok (u64 (elf.sectionOffset + i * elf.sectionEntrySize)) ∧
      u64 (elf.sectionOffset + i * elf.sectionEntrySize) + shdrSize elf.x32 ≤ elf.size := by
  unfold sectionNamed elfGetSectionInfo elfGetSectionHeaderOffset at h
  unfold elfGetSectionHeaderOffset
  by_cases h0 : i = 0
  · simp [h0, error_bind] at h
  · by_cases hi : i < elf.sectionCount
    · rw [if_neg h0, if_pos hi, ok_bind] at h
      rw [if_neg h0, if_pos hi, ← elfRangeValid_eq_true hs, ← Bool.not_eq_false]
      refine ⟨rfl, ?_⟩
      intro hrange
      by_cases hzero : u64 (elf.sectionOffset + i * elf.sectionEntrySize) = 0
      · rw [if_pos hzero] at h
        cases h
      · rw [if_neg hzero, if_pos hrange] at h
        cases h
    · rw [if_neg h0, if_neg hi, error_bind] at h
      cases h

theorem shFlags_within : ElfField.Within shFlags shdrSize := by unfold ElfField.Within; decide

theorem elfStripVersionsSection_eq {elf : KmodElf} (hv : elf.Valid) :
    elfStripVersionsSection elf (elf.memory.take elf.size) =
      .ok (.ok (clearAlloc elf (elf.memory.take elf.size))) := by
  have hle := hv.le
  have hlt := hv.lt
  unfold elfStripVersionsSection kmodElfGetSection clearAlloc flagsPlace firstNamed
  rcases kmodElfGetSectionFrom_eq hv (show 0 ∉ cstr "__versions" by decide)
    (List.range' 1 (elf.sectionCount - 1)) (by intro i hi; rw [List.mem_range'_1] at hi; omega) with
    ⟨hfind, hget⟩ | ⟨i, info, hfind, _, hget⟩
  · rw [hfind, hget, ok_bind]
    rfl
  · obtain ⟨hhdr, hin⟩ := sectionNamed_header hv.toSized (List.find?_some hfind)
    obtain ⟨hfield, h8⟩ := shFlags_within elf.x32
    have hpos : 0 < (shFlags elf.x32).size := by cases elf.x32 <;> decide
    rw [hfind, hget, ok_bind]
    dsimp only
    rw [hhdr, ok_bind, u64_of_lt (n := u64 _ + _) (by omega), elfGetUint_eq h8 (by omega), ok_bind]
    rw [Option.map_some, Option.elim_some]
    generalize u64 (elf.sectionOffset + i * elf.sectionEntrySize) = hdr at *
    have hlen : (bytesAt elf.memory (hdr + (shFlags elf.x32).offset)
        (shFlags elf.x32).size).length =
        (shFlags elf.x32).size := length_bytesAt (by omega)
    have hbytes := bytesOf_lowMask elf.msb notAlloc
      (List.ne_nil_of_length_pos (hpos.trans_eq hlen.symm)) (hlen.trans_le h8)
    have hplace : lowPlace elf.msb (shFlags elf.x32).size < (shFlags elf.x32).size := by
      unfold lowPlace
      split <;> omega
    unfold elfSetUint
    rw [if_pos h8, show 0xfffffffffffffffd = lowMask notAlloc from rfl]
    rw [hlen] at hbytes
    rw [hbytes, ← bytesAt_take (show _ ≤ elf.size by omega), putRange_modify
      (by rw [List.length_take]; omega) hplace, inBlock_some, ok_bind]

/-! ## What stripping changes -/

/-- Only `.modinfo` is cleared, and `SHF_ALLOC` of `__versions`. -/
structure StripFrame (elf : KmodElf) (stripped : List UInt8) : Prop where
  length : stripped.length = elf.size
  bytes : ∀ p b, stripped[p]? = some b → elf.memory[p]? = some b ∨
    ((elf.sections .modinfo).offset ≤ p ∧
      p < (elf.sections .modinfo).offset + (elf.sections .modinfo).size ∧ b = 0) ∨
    (flagsPlace elf = some p ∧ elf.memory[p]?.map (· &&& notAlloc) = some b)

/-- The string that is cleared does not end in the section. -/
def VermagicOpen (elf : KmodElf) : Prop :=
  (elf.sections .modinfo).offset ≠ 0 ∧ RunsOut (elf.sectionBytes .modinfo) ∧
    vermagicStr <+: openTail 0 (elf.sectionBytes .modinfo)

/-- The bytes behind the section, up to a NUL. -/
def behindModinfo (elf : KmodElf) (behind : List UInt8) : List UInt8 :=
  front ((elf.mapped behind).drop
    ((elf.sections .modinfo).offset + (elf.sections .modinfo).size))

/--
A string that does not end in the section is followed by a NUL, or by a byte with the flag
that may be cleared and no other, and a NUL.
-/
def StripContained (elf : KmodElf) (behind : List UInt8) (flags : Nat) : Prop :=
  flags &&& KMOD_INSERT_FORCE_VERMAGIC ≠ 0 → VermagicOpen elf →
    behindModinfo elf behind = [] ∨
    ∃ c, behindModinfo elf behind = [c] ∧ c &&& notAlloc = 0 ∧
      (elf.sections .modinfo).offset + (elf.sections .modinfo).size < elf.size ∧
      flagsPlace elf = some ((elf.sections .modinfo).offset + (elf.sections .modinfo).size)

/-- The copy after the versions of symbols have been stripped, if they are. -/
def unversioned (elf : KmodElf) (flags : Nat) : List UInt8 :=
  if flags &&& KMOD_INSERT_FORCE_MODVERSION ≠ 0 then clearAlloc elf (elf.memory.take elf.size)
  else elf.memory.take elf.size

section
variable {elf : KmodElf}

theorem kmodElfStrip_eq (hv : elf.Valid) (behind : List UInt8) {flags : Nat}
    (hflags : flags &&& (KMOD_INSERT_FORCE_MODVERSION ||| KMOD_INSERT_FORCE_VERMAGIC) ≠ 0) :
    kmodElfStrip true behind elf flags =
      if flags &&& KMOD_INSERT_FORCE_VERMAGIC ≠ 0 then
        (elfStripVermagic behind elf (unversioned elf flags)).val
      else .ok (.ok (unversioned elf flags)) := by
  unfold kmodElfStrip unversioned
  rw [if_neg hflags, if_neg (by simp)]
  dsimp only
  by_cases hver : flags &&& KMOD_INSERT_FORCE_MODVERSION ≠ 0
  · rw [if_pos hver, if_pos hver, elfStripVersionsSection_eq hv, ok_bind]
  · rw [if_neg hver, if_neg hver, ok_bind]

theorem length_unversioned (hv : elf.Valid) (flags : Nat) :
    (unversioned elf flags).length = elf.size := by
  have hle := hv.le
  have hcopy : (elf.memory.take elf.size).length = elf.size := by
    rw [List.length_take]
    omega
  unfold unversioned clearAlloc
  split
  · cases flagsPlace elf with
    | none => exact hcopy
    | some p => exact (List.length_modify _ _ _).trans hcopy
  · exact hcopy

/-- The bytes of the copy are those of the file, but for the flag. -/
theorem getElem?_unversioned {flags p : Nat} {b : UInt8}
    (h : (unversioned elf flags)[p]? = some b) :
    elf.memory[p]? = some b ∨
      (flagsPlace elf = some p ∧ elf.memory[p]?.map (· &&& notAlloc) = some b) := by
  have hcopy : ∀ {c}, (elf.memory.take elf.size)[p]? = some c → elf.memory[p]? = some c := by
    intro c hc
    rw [List.getElem?_take] at hc
    split at hc
    · exact hc
    · cases hc
  unfold unversioned clearAlloc at h
  split at h
  · cases hplace : flagsPlace elf with
    | none =>
      rw [hplace] at h
      exact .inl (hcopy h)
    | some q =>
      rw [hplace, Option.elim_some] at h
      by_cases hq : q = p
      · subst hq
        rw [List.getElem?_modify_eq] at h
        obtain ⟨c, hc, rfl⟩ := Option.map_eq_some_iff.mp h
        exact .inr ⟨rfl, by rw [hcopy hc]; rfl⟩
      · rw [List.getElem?_modify_ne _ _ hq] at h
        exact .inl (hcopy h)
  · exact .inl (hcopy h)

theorem stripFrame_unversioned (hv : elf.Valid) (flags : Nat) :
    StripFrame elf (unversioned elf flags) :=
  ⟨length_unversioned hv flags, fun _ _ h => (getElem?_unversioned h).imp_right .inr⟩

/-- Clearing bytes from the section on is allowed if it is for those behind the section. -/
theorem stripFrame_clear (hv : elf.Valid) {flags q len : Nat} {stripped : List UInt8}
    (hput : putRange (unversioned elf flags) q (List.replicate len 0) = some stripped)
    (hq : (elf.sections .modinfo).offset ≤ q) :
    StripFrame elf stripped ↔
      ∀ p, (elf.sections .modinfo).offset + (elf.sections .modinfo).size ≤ p → q ≤ p → p < q + len →
        elf.memory[p]? = some 0 ∨
          (flagsPlace elf = some p ∧ elf.memory[p]?.map (· &&& notAlloc) = some 0) := by
  have hget := getElem?_putRange hput
  rw [List.length_replicate] at hget
  refine ⟨?_, ?_⟩
  · intro hframe p hend hlo hhi
    have hzero : stripped[p]? = some 0 := by
      rw [hget, if_pos ⟨hlo, hhi⟩, List.getElem?_replicate_of_lt (by omega)]
    rcases hframe.bytes p 0 hzero with h | ⟨_, h, _⟩ | h
    · exact .inl h
    · omega
    · exact .inr h
  · intro h
    refine ⟨(length_putRange hput).trans (length_unversioned hv flags), ?_⟩
    intro p b hb
    rw [hget] at hb
    split at hb
    · next hp =>
      rw [List.getElem?_replicate_of_lt (by omega), Option.some_inj] at hb
      subst hb
      rcases Nat.lt_or_ge p ((elf.sections .modinfo).offset + (elf.sections .modinfo).size) with
        hin | hout
      · exact .inr (.inl ⟨by omega, hin, rfl⟩)
      · exact (h p hout hp.1 hp.2).imp_right .inr
    · exact (getElem?_unversioned hb).imp_right .inr

/-- The bytes behind the section that are in the file. -/
theorem getElem?_behindModinfo {behind : List UInt8} {j : Nat}
    (hj : j < (behindModinfo elf behind).length)
    (hfile : (elf.sections .modinfo).offset + (elf.sections .modinfo).size + j < elf.memory.length) :
    ∃ c, (behindModinfo elf behind)[j]? = some c ∧ c ≠ 0 ∧
      elf.memory[(elf.sections .modinfo).offset + (elf.sections .modinfo).size + j]? = some c := by
  refine ⟨(behindModinfo elf behind)[j], List.getElem?_eq_getElem hj, ?_, ?_⟩
  · intro hzero
    have hmem := List.getElem_mem hj
    rw [hzero] at hmem
    exact nul_not_mem_front _ hmem
  · obtain ⟨rest, hrest⟩ : behindModinfo elf behind <+: (elf.mapped behind).drop
        ((elf.sections .modinfo).offset + (elf.sections .modinfo).size) := List.takeWhile_prefix _
    have hget : (elf.mapped behind)[(elf.sections .modinfo).offset +
        (elf.sections .modinfo).size + j]? = some (behindModinfo elf behind)[j] := by
      rw [← List.getElem?_drop, ← hrest, List.getElem?_append_left hj, List.getElem?_eq_getElem hj]
    unfold KmodElf.mapped at hget
    rwa [List.getElem?_append_left hfile] at hget

/-- The string that is found does not end in the section just if nothing is behind it there. -/
theorem FirstVermagic.open_iff {l pre w post : List UInt8} (h : FirstVermagic l pre w post) :
    (RunsOut l ∧ vermagicStr <+: openTail 0 l) ↔ post = [] := by
  refine ⟨?_, ?_⟩
  · intro hopen
    rcases h.behind with hnil | ⟨b, rfl⟩
    · exact hnil
    · -- otherwise the string is one of those that end
      have hclosed : Closed 0 (pre ++ w ++ [0]) := .inr ⟨pre ++ w, rfl⟩
      have hpart : closedPart 0 l = pre ++ w ++ [0] ++ closedPart 0 b := by
        rw [h.eq, ← hclosed.closedPart_append]
        simp
      have hmem : w ∈ segments 0 (closedPart 0 l) := by
        rw [hpart, hclosed.segments_append, segments_append_sep, h.before.segments_append,
          segments_word h.ne_nil h.nul]
        simp
      exact absurd h.starts (hopen.1.2 w hmem)
  · rintro rfl
    have hpart : closedPart 0 l = pre := by
      rw [h.eq, List.append_nil, h.before.closedPart_append, closedPart_word h.nul, List.append_nil]
    unfold RunsOut
    rw [h.openTail_last, hpart]
    exact ⟨⟨h.room, h.first⟩, h.starts⟩

/-- Clearing bytes has a result if they are in the copy. -/
theorem clearVermagic_some {changed : List UInt8} {q len : Nat} {P : List UInt8 → Prop} :
    (∃ r, clearVermagic changed (some (q, len)) = .ok r ∧ ∀ stripped,
      r = .ok stripped → P stripped) ↔
      ∃ stripped, putRange changed q (List.replicate len 0) = some stripped ∧ P stripped := by
  rw [clearVermagic]
  cases putRange changed q (List.replicate len 0) with
  | none => exact iff_of_false (fun ⟨_, h, _⟩ => by cases h) (fun ⟨_, h, _⟩ => by cases h)
  | some changed' =>
    refine ⟨?_, ?_⟩
    · intro ⟨r, hr, hP⟩
      cases hr
      exact ⟨changed', rfl, hP changed' rfl⟩
    · intro ⟨stripped, hput, hP⟩
      cases hput
      refine ⟨_, rfl, ?_⟩
      intro stripped h
      cases h
      exact hP

/-- The vermagic string is cleared together with what follows the section. -/
theorem clearVermagic_open_iff (hv : elf.Valid) {flags q n : Nat} {behind : List UInt8}
    (hq : (elf.sections .modinfo).offset ≤ q)
    (hend : q + n = (elf.sections .modinfo).offset + (elf.sections .modinfo).size) :
    (∃ r, clearVermagic (unversioned elf flags) (some (q, n + (behindModinfo elf behind).length)) =
        .ok r ∧ ∀ stripped, r = .ok stripped → StripFrame elf stripped) ↔
      (behindModinfo elf behind = [] ∨
        ∃ c, behindModinfo elf behind = [c] ∧ c &&& notAlloc = 0 ∧
          (elf.sections .modinfo).offset + (elf.sections .modinfo).size < elf.size ∧
          flagsPlace elf = some ((elf.sections .modinfo).offset + (elf.sections .modinfo).size)) := by
  have hle := hv.le
  have hin := hv.sections_inFile .modinfo
  have hget := @getElem?_behindModinfo elf behind
  rw [clearVermagic_some]
  generalize behindModinfo elf behind = run at hget ⊢
  have hfits : (∃ stripped, putRange (unversioned elf flags) q
      (List.replicate (n + run.length) 0) = some stripped) ↔ q + (n + run.length) ≤ elf.size := by
    rw [exists_putRange, List.length_replicate, length_unversioned hv]
  refine ⟨?_, ?_⟩
  · intro ⟨stripped, hput, hframe⟩
    have hroom := hfits.mp ⟨stripped, hput⟩
    have hallowed := (stripFrame_clear hv hput hq).mp hframe
    -- a byte behind the section that is cleared is the one with the flag
    have hplace : ∀ j, j < run.length → ∃ c, run[j]? = some c ∧ c &&& notAlloc = 0 ∧
        flagsPlace elf = some ((elf.sections .modinfo).offset + (elf.sections .modinfo).size + j) := by
      intro j hj
      obtain ⟨c, hc, hne, hmem⟩ := hget hj (by omega)
      rcases hallowed _ (Nat.le_add_right _ j) (by omega) (by omega) with h | ⟨hflag, h⟩
      · rw [hmem, Option.some_inj] at h
        exact absurd h hne
      · rw [hmem, Option.map_some, Option.some_inj] at h
        exact ⟨c, hc, h, hflag⟩
    rcases run with _ | ⟨c, _ | ⟨d, run⟩⟩
    · exact .inl rfl
    · obtain ⟨c', hc, hclear, hflag⟩ := hplace 0 Nat.one_pos
      cases hc
      exact .inr ⟨c, rfl, hclear, by rw [List.length_singleton] at hroom; omega, hflag⟩
    · obtain ⟨_, _, _, hflag0⟩ := hplace 0 (Nat.succ_pos _)
      obtain ⟨_, _, _, hflag1⟩ := hplace 1 (by simp)
      rw [hflag0, Option.some_inj] at hflag1
      omega
  · intro h
    have hroom : q + (n + run.length) ≤ elf.size := by
      rcases h with rfl | ⟨c, rfl, _, hlt, _⟩
      · rw [List.length_nil]
        omega
      · rw [List.length_singleton]
        omega
    obtain ⟨stripped, hput⟩ := hfits.mpr hroom
    refine ⟨stripped, hput, (stripFrame_clear hv hput hq).mpr ?_⟩
    intro p hlo _ hhi
    rcases h with rfl | ⟨c, rfl, hclear, hlt, hflag⟩
    · rw [List.length_nil] at hhi
      omega
    · rw [List.length_singleton] at hhi
      obtain rfl : p = (elf.sections .modinfo).offset + (elf.sections .modinfo).size := by omega
      obtain ⟨c', hc, _, hmem⟩ := hget (j := 0) Nat.one_pos (by omega)
      cases hc
      rw [Nat.add_zero] at hmem
      exact .inr ⟨hflag, by rw [hmem, Option.map_some, hclear]⟩

/-- Such a section is not too short for the scan. -/
theorem VermagicOpen.one_lt (h : VermagicOpen elf) :
    1 < (unpadded (elf.sectionBytes .modinfo)).length := by
  have htail : openTail 0 (unpadded (elf.sectionBytes .modinfo)) =
      openTail 0 (elf.sectionBytes .modinfo) := openTail_dropWhile _
  have hle : (openTail 0 (unpadded (elf.sectionBytes .modinfo))).length ≤
      (unpadded (elf.sectionBytes .modinfo)).length := (List.rtakeWhile_suffix _ _).length_le
  have hlong := h.2.1.1
  rw [← htail] at hlong
  have h9 : vermagicStr.length = 9 := rfl
  omega

/-- Whatever `elf_strip_vermagic` does, it is contained as said. -/
theorem elfStripVermagic_frame_iff (hv : elf.Valid) (behind : List UInt8) (flags : Nat) :
    (∃ r, (elfStripVermagic behind elf (unversioned elf flags)).val = .ok r ∧
        ∀ stripped, r = .ok stripped → StripFrame elf stripped) ↔
      (VermagicOpen elf →
        behindModinfo elf behind = [] ∨
        ∃ c, behindModinfo elf behind = [c] ∧ c &&& notAlloc = 0 ∧
          (elf.sections .modinfo).offset + (elf.sections .modinfo).size < elf.size ∧
          flagsPlace elf = some ((elf.sections .modinfo).offset + (elf.sections .modinfo).size)) := by
  have hframe := stripFrame_unversioned hv flags
  have hsame : ∃ r : Except Int (List UInt8),
      (.ok (.ok (unversioned elf flags)) : Except Fault _) = .ok r ∧
      ∀ stripped, r = .ok stripped → StripFrame elf stripped := by
    refine ⟨_, rfl, ?_⟩
    intro stripped h
    cases h
    exact hframe
  by_cases hoff : (elf.sections .modinfo).offset = 0
  · have hnone : elfStripVermagic behind elf (unversioned elf flags) =
        pure (.ok (.ok (unversioned elf flags))) := if_pos hoff
    rw [hnone]
    exact iff_of_true hsame (fun h => absurd hoff h.1)
  rcases Nat.lt_or_ge 1 (unpadded (elf.sectionBytes .modinfo)).length with h1 | h1
  · obtain ⟨r, hscan, _, hval⟩ := elfStripVermagic_scan hv behind (unversioned elf flags) hoff h1
    rw [hval]
    rcases hscan.val with ⟨pre, w, post, hfirst, hr⟩ | ⟨hno, hr⟩
    · have hpre := hv.sectionBytes_mapped .modinfo behind
      have hlen := hv.length_sectionBytes .modinfo
      rw [hfirst.eq] at hpre
      rw [hfirst.eq, List.length_append, List.length_append] at hlen
      rw [hr]
      by_cases hpost : post = []
      · have hopen : VermagicOpen elf := ⟨hoff, hfirst.open_iff.mpr hpost⟩
        have hfront : (front ((elf.mapped behind).drop
            ((elf.sections .modinfo).offset + pre.length))).length =
            w.length + (behindModinfo elf behind).length := by
          rw [hpost, List.append_nil] at hpre
          rw [hpost, List.length_nil] at hlen
          rw [front_drop hfirst.nul (prefix_drop_add hpre), List.length_append]
          unfold behindModinfo
          rw [← hlen, Nat.add_zero, Nat.add_assoc]
        rw [hfront, clearVermagic_open_iff hv (Nat.le_add_right _ _)
          (by rw [hpost, List.length_nil] at hlen; omega)]
        exact ⟨fun h _ => h, fun h => h hopen⟩
      · obtain ⟨b, rfl⟩ := hfirst.behind.resolve_left hpost
        have hin := hv.sections_inFile .modinfo
        obtain ⟨stripped, hput⟩ : ∃ stripped, putRange (unversioned elf flags)
            ((elf.sections .modinfo).offset + pre.length) (List.replicate w.length 0) =
              some stripped := by
          rw [exists_putRange, List.length_replicate, length_unversioned hv]
          omega
        have hcleared : StripFrame elf stripped :=
          (stripFrame_clear hv hput (Nat.le_add_right _ _)).mpr (fun p hend _ hp => by omega)
        rw [hfirst.front_eq hv]
        exact iff_of_true (clearVermagic_some.mpr ⟨stripped, hput, hcleared⟩)
          (fun h => absurd (hfirst.open_iff.mp h.2) hpost)
    · rw [hr]
      refine iff_of_true ⟨_, rfl, by simp⟩ ?_
      intro ⟨_, hruns, hstarts⟩
      exact absurd ⟨hstarts, hruns.1⟩ hno.2
  · rw [(elfStripVermagic_padding hv behind (unversioned elf flags) hoff h1).1]
    exact iff_of_true hsame (fun h => absurd h.one_lt (Nat.not_lt.mpr h1))

end

/--
**When stripping changes nothing else.** The copy has the length of the file and differs
from it in `.modinfo` and in `SHF_ALLOC` of `__versions` alone, just if the bytes that are
cleared with a string that does not end in the section are none, or that flag.
-/
theorem kmodElfStrip_frame_iff {allocated : Bool} {memory : List UInt8} {elf : KmodElf}
    (hnew : kmodElfNew allocated memory = .ok (.ok elf)) (behind : List UInt8) {flags : Nat}
    (hflags : flags &&& (KMOD_INSERT_FORCE_MODVERSION ||| KMOD_INSERT_FORCE_VERMAGIC) ≠ 0) :
    (∀ memdup, ∃ r, kmodElfStrip memdup behind elf flags = .ok r ∧
        ∀ stripped, r = .ok stripped → StripFrame elf stripped) ↔
      StripContained elf behind flags := by
  obtain ⟨hv, _⟩ := valid_of_kmodElfNew hnew
  have hfail : kmodElfStrip false behind elf flags = .ok (.error (-ENOMEM)) := by
    unfold kmodElfStrip
    rw [if_neg hflags, if_pos rfl]
  have hboth : (∀ memdup, ∃ r, kmodElfStrip memdup behind elf flags = .ok r ∧
        ∀ stripped, r = .ok stripped → StripFrame elf stripped) ↔
      ∃ r, kmodElfStrip true behind elf flags = .ok r ∧
        ∀ stripped, r = .ok stripped → StripFrame elf stripped := by
    rw [Bool.forall_bool, hfail]
    exact and_iff_right ⟨_, rfl, by simp⟩
  rw [hboth, kmodElfStrip_eq hv behind hflags]
  unfold StripContained
  by_cases hmagic : flags &&& KMOD_INSERT_FORCE_VERMAGIC ≠ 0
  · rw [if_pos hmagic, elfStripVermagic_frame_iff hv behind flags]
    exact ⟨fun h _ => h, fun h => h hmagic⟩
  · rw [if_neg hmagic]
    refine iff_of_true ⟨_, rfl, ?_⟩ (fun h => absurd h hmagic)
    intro stripped h
    cases h
    exact stripFrame_unversioned hv flags

/-- Strings that end are stripped without a trace elsewhere. -/
theorem kmodElfStrip_frame_between :
    kmodElfNew true (modinfoFile magicInfo) = .ok (.ok (modinfoElf magicInfo)) ∧
    ∀ memdup, ∃ r, kmodElfStrip memdup [7] (modinfoElf magicInfo) 3 = .ok r ∧
      ∀ stripped, r = .ok stripped → StripFrame (modinfoElf magicInfo) stripped := by
  have hnew : kmodElfNew true (modinfoFile magicInfo) = .ok (.ok (modinfoElf magicInfo)) := by
    decide +kernel
  have htail : ¬ vermagicStr.length <
      (openTail 0 ((modinfoElf magicInfo).sectionBytes .modinfo)).length := by decide +kernel
  exact ⟨hnew, (kmodElfStrip_frame_iff hnew [7] (by decide)).mpr (fun _ h => absurd h.2.1.1 htail)⟩

/-- A section with a version magic that does not end, and a byte behind it. -/
def openMagic : List UInt8 := cstr "vermagic=6"

def openMagicElf : KmodElf :=
  { modinfoElf openMagic with memory := modinfoFile openMagic ++ [7], size := 193 }

/-- The byte behind the section is cleared as well. -/
theorem kmodElfStrip_frame_open :
    kmodElfNew true (modinfoFile openMagic ++ [7]) = .ok (.ok openMagicElf) ∧
    ∃ stripped, kmodElfStrip true [] openMagicElf KMOD_INSERT_FORCE_VERMAGIC = .ok (.ok stripped) ∧
      ¬ StripFrame openMagicElf stripped := by
  refine ⟨by decide +kernel, (modinfoFile openMagic).take 182 ++ List.replicate 11 0,
    by decide +kernel, ?_⟩
  intro h
  have hplace := h.bytes 192 0 (by decide +kernel)
  revert hplace
  decide +kernel

end Kmod
