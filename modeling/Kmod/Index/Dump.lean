import Kmod.Index.Agree
import Kmod.Shared.Strbuf

/-!
# Dumping an index to a file descriptor

`index_mm_dump` goes through the tree with two buffers at hand: a string buffer
with the path to the current node, to which each node pushes its prefix and from
which it pops it again, and an output buffer of 4096 bytes, which is flushed
whenever it is full, also in the middle of a line.

Neither shows in the result. What is written is the listing of the tree, one line
for each value (`dumpNodeTo_writes`), and the listing is ordered by key and then
by priority (`listing_sorted`).
-/

namespace Kmod.Index

open Kmod.Lists Bytes Sorting

/-! ## The output buffer -/

/-- `sizeof(buf->bytes)`. -/
def WRTBUF_SIZE : Nat := 4096

/-- A `struct wrtbuf`: the pending bytes, and what `write_str_safe` was given so far. -/
structure Wrtbuf where
  bytes : List UInt8
  written : List UInt8
  fits : bytes.length ≤ WRTBUF_SIZE

/-- Everything that went in. -/
def Wrtbuf.all (buf : Wrtbuf) : List UInt8 := buf.written ++ buf.bytes

/-- `wrtbuf_init`. -/
def wrtbufInit : Wrtbuf := ⟨[], [], Nat.zero_le _⟩

/-- `wrtbuf_flush`. -/
def wrtbufFlush (buf : Wrtbuf) : Wrtbuf :=
  if 0 < buf.bytes.length then ⟨[], buf.written ++ buf.bytes, Nat.zero_le _⟩ else buf

/-- The `memcpy` of `wrtbuf_write`. -/
def Wrtbuf.fill (buf : Wrtbuf) (p : List UInt8) (h : p.length ≤ WRTBUF_SIZE - buf.bytes.length) :
    Wrtbuf :=
  ⟨buf.bytes ++ p, buf.written, by
    have := buf.fits
    rw [List.length_append]
    omega⟩

/-- One round of `wrtbuf_write`, with `n` bytes that fit. -/
def wrtbufRound (buf : Wrtbuf) (p : List UInt8) (h : p.length ≤ WRTBUF_SIZE - buf.bytes.length) :
    Wrtbuf :=
  if (buf.fill p h).bytes.length = WRTBUF_SIZE then wrtbufFlush (buf.fill p h) else buf.fill p h

theorem all_wrtbufFlush (buf : Wrtbuf) : (wrtbufFlush buf).all = buf.all := by
  unfold wrtbufFlush
  split
  · exact List.append_nil _
  · rfl

theorem written_wrtbufFlush (buf : Wrtbuf) : (wrtbufFlush buf).written = buf.all := by
  unfold wrtbufFlush
  split
  · rfl
  · next h =>
    have hnil : buf.bytes = [] := List.eq_nil_of_length_eq_zero (by omega)
    rw [Wrtbuf.all, hnil, List.append_nil]

theorem all_wrtbufRound (buf : Wrtbuf) (p : List UInt8)
    (h : p.length ≤ WRTBUF_SIZE - buf.bytes.length) : (wrtbufRound buf p h).all = buf.all ++ p := by
  have hfill : (buf.fill p h).all = buf.all ++ p := (List.append_assoc ..).symm
  unfold wrtbufRound
  split
  · rw [all_wrtbufFlush, hfill]
  · exact hfill

/-- A full buffer does not stay full. -/
theorem length_wrtbufRound (buf : Wrtbuf) (p : List UInt8)
    (h : p.length ≤ WRTBUF_SIZE - buf.bytes.length) :
    (wrtbufRound buf p h).bytes.length < WRTBUF_SIZE := by
  have hfits := (buf.fill p h).fits
  unfold wrtbufRound
  split
  · next hfull =>
    unfold wrtbufFlush
    rw [if_pos (by rw [hfull]; decide)]
    show 0 < WRTBUF_SIZE
    decide
  · omega

/-- How many of `todo` bytes fit. -/
def wrtbufRoom (buf : Wrtbuf) (todo : Nat) : Nat := min (WRTBUF_SIZE - buf.bytes.length) todo

theorem length_take_room (buf : Wrtbuf) (p : List UInt8) :
    (p.take (wrtbufRoom buf p.length)).length ≤ WRTBUF_SIZE - buf.bytes.length := by
  unfold wrtbufRoom
  rw [List.length_take]
  omega

/-- `wrtbuf_write`. -/
def wrtbufWrite (buf : Wrtbuf) (p : List UInt8) : Wrtbuf :=
  if 0 < p.length - wrtbufRoom buf p.length then
    wrtbufWrite (wrtbufRound buf (p.take (wrtbufRoom buf p.length)) (length_take_room buf p))
      (p.drop (wrtbufRoom buf p.length))
  else wrtbufRound buf (p.take (wrtbufRoom buf p.length)) (length_take_room buf p)
termination_by (p.length, buf.bytes.length)
decreasing_by
  have hnext := length_wrtbufRound buf _ (length_take_room buf p)
  have hfits := buf.fits
  rw [List.length_drop]
  -- either something was taken, or the buffer was full and is not full any more
  rcases Nat.eq_zero_or_pos (wrtbufRoom buf p.length) with hn | hn
  · have hfull : WRTBUF_SIZE - buf.bytes.length = 0 := by
      unfold wrtbufRoom at hn
      omega
    rw [show p.length - wrtbufRoom buf p.length = p.length by omega]
    exact Prod.Lex.right _ (by omega)
  · exact Prod.Lex.left _ _ (by omega)

/-- **Nothing is lost and nothing is reordered**, however the bytes fall into chunks. -/
theorem all_wrtbufWrite (buf : Wrtbuf) (p : List UInt8) :
    (wrtbufWrite buf p).all = buf.all ++ p := by
  induction buf, p using wrtbufWrite.induct with
  | case1 buf p hleft ih =>
    unfold wrtbufWrite
    rw [if_pos hleft, ih, all_wrtbufRound, List.append_assoc, List.take_append_drop]
  | case2 buf p hdone =>
    unfold wrtbufWrite
    rw [if_neg hdone, all_wrtbufRound, List.take_of_length_le (by omega)]

/-! ## The dump -/

/-- The four writes for one value. -/
def dumpValueTo (buf : Strbuf) (wbuf : Wrtbuf) (v : IndexValue) : Wrtbuf :=
  wrtbufWrite (wrtbufWrite (wrtbufWrite (wrtbufWrite wbuf buf.contents) (cstr " ")) v.value)
    (cstr "\n")

section Traversal

variable {N : Type} (r : Reader N)

/-- The body of the loop over the children, given how a node is dumped. -/
def dumpChildTo (dumpNode : N → Strbuf → Wrtbuf → Except Fault (Strbuf × Wrtbuf)) (ch : UInt8)
    (s : Strbuf × Wrtbuf) (child : N) : Except Fault (Strbuf × Wrtbuf) :=
  match strbufPushchar s.1 ch with
  | (false, buf) => .ok (buf, s.2)
  | (true, buf) => do
    let (buf, wbuf) ← dumpNode child buf s.2
    let buf ← strbufPopchar buf
    .ok (buf, wbuf)

/-- `index_dump_node` and `index_mm_dump_node`, with their buffers. -/
def dumpNodeTo : Nat → N → Strbuf → Wrtbuf → Except Fault (Strbuf × Wrtbuf)
  | 0, _, _, _ => .error .outOfFuel
  | fuel + 1, node, buf, wbuf => do
    let (pushed, buf) := strbufPushchars buf (r.pfx node)
    let values ← r.values node
    let wbuf := values.foldl (dumpValueTo buf) wbuf
    let (buf, wbuf) ← forChars
      (fun ch s => r.withChild node ch s (dumpChildTo (dumpNodeTo fuel) ch s))
      (r.last node) fuel (r.first node) (buf, wbuf)
    let buf ← strbufPopchars buf pushed
    .ok (buf, wbuf)

end Traversal

/-- The path buffer as `index_mm_dump` hands it on, unless there is no memory for the prefix. -/
def dumpPath (aliasPrefix : Bool) : Option Strbuf :=
  let buf := declareStrbufWithStack 128
  if aliasPrefix then
    match strbufPushchars buf (cstr "alias ") with
    | (0, _) => none
    | (_, buf) => some buf
  else some buf

/-- `index_mm_dump`: the path buffer at the end, and the bytes given to `write_str_safe`. -/
def indexMmDumpTo (fuel : Nat) (idx : IndexMm) (aliasPrefix : Bool) :
    Except Fault (Option Strbuf × List UInt8) := do
  match ← indexMmReadNode idx idx.rootOffset with
  | none => .ok (none, [])
  | some root =>
    match dumpPath aliasPrefix with
    | none => .ok (none, (wrtbufFlush wrtbufInit).written)
    | some buf => do
      let (buf, wbuf) ← dumpNodeTo (mmReader idx) fuel root buf wrtbufInit
      .ok (some buf, (wrtbufFlush wbuf).written)

/-! ## What is written -/

theorem all_dumpValueTo (buf : Strbuf) (wbuf : Wrtbuf) (v : IndexValue) :
    (dumpValueTo buf wbuf v).all = wbuf.all ++ dumpLine buf.contents v := by
  unfold dumpValueTo dumpLine
  simp only [all_wrtbufWrite, List.append_assoc]

theorem all_dumpValuesTo (buf : Strbuf) (values : List IndexValue) :
    ∀ wbuf : Wrtbuf, (values.foldl (dumpValueTo buf) wbuf).all
      = wbuf.all ++ values.flatMap (dumpLine buf.contents) := by
  induction values with
  | nil => intro wbuf; exact (List.append_nil _).symm
  | cons v values ih =>
    intro wbuf
    rw [List.foldl_cons, ih, all_dumpValueTo, List.flatMap_cons, List.append_assoc]

/-- The path to a child is no longer than what is stored above it. -/
theorem byteLen_child {d : NodeData} {children : UInt8 → IndexNode} (hok : NodeOk d children)
    {c : UInt8} (hc : children c ≠ .null) :
    d.pfx.length + 1 + byteLen (children c) ≤ byteLen (.node d children) := by
  have hbounds := hok.bounds_of_child hc
  have hhas : indexHaschildren d = true := by
    simpa [indexHaschildren] using UInt8.lt_of_le_of_lt hbounds.2.1 hbounds.2.2
  have hmem : c ∈ charsOf d := by
    rw [hok.charsOf_eq]
    exact mem_charsBetween.mpr (hok.range c hc)
  have hle := List.single_le_sum (fun _ _ => Nat.zero_le _) _
    (List.mem_map_of_mem (f := fun c => byteLen (children c)) hmem)
  have hbody : d.pfx.length + 1 ≤ bodyLen d := by
    unfold bodyLen
    rw [if_pos hhas]
    split
    · omega
    · next hnil =>
      rw [not_not.mp hnil, List.length_nil]
      omega
  rw [byteLen]
  omega

theorem byteLen_pfx (d : NodeData) (children : UInt8 → IndexNode) :
    d.pfx.length ≤ byteLen (.node d children) := by
  rw [byteLen, bodyLen]
  by_cases hp : d.pfx = []
  · simp [hp]
  · rw [if_pos hp]
    omega

section Reader

variable {N : Type} {r : Reader N} {g : List IndexValue → List IndexValue}
  {R : N → NodeData → (UInt8 → IndexNode) → Prop} (hR : Represents r g R)
include hR

/-- **The dump of a node** writes the lines of its tree and leaves the path as it was. -/
theorem dumpNodeTo_writes :
    ∀ {fuel : Nat} {x : N} {d : NodeData} {children : UInt8 → IndexNode} (buf : Strbuf)
      (wbuf : Wrtbuf), R x d children → (IndexNode.node d children).nodes + 128 ≤ fuel →
      buf.used + byteLen (.node d children) < SIZE_MAX - BUF_STEP →
      ∃ buf' wbuf', dumpNodeTo r fuel x buf wbuf = .ok (buf', wbuf') ∧
        buf'.contents = buf.contents ∧
        wbuf'.all = wbuf.all ++ dumpOf g (.node d children) buf.contents := by
  intro fuel
  induction fuel with
  | zero => intro x d children buf wbuf _ hfuel; omega
  | succ fuel ih =>
    intro x d children buf wbuf hx hfuel hsize
    have hok := hR.ok hx
    have hpfx := byteLen_pfx d children
    obtain ⟨path, hpush, hpath⟩ := strbufPushchars_ok buf d.pfx (by omega)
    have hused : path.used = buf.used + d.pfx.length := by
      rw [← path.length_contents, hpath, List.length_append, buf.length_contents]
    have hvalues := all_dumpValuesTo path (g d.values) wbuf
    generalize hw : (g d.values).foldl (dumpValueTo path) wbuf = wvalues at hvalues
    rw [hpath] at hvalues
    -- after the children in `done` the path is the same and their lines are written
    let P : List UInt8 → Strbuf × Wrtbuf → Prop := fun done s =>
      s.1.contents = buf.contents ++ d.pfx ∧
        s.2.all = wvalues.all ++ done.flatMap (fun c => dumpOf g (children c)
          (buf.contents ++ d.pfx ++ [c]))
    have hbody : ∀ c, d.first ≤ c → c ≤ d.last → ∀ done s, P done s → ∃ s',
        r.withChild x c s (dumpChildTo (dumpNodeTo r fuel) c s) = .ok s' ∧ P (done ++ [c]) s' := by
      intro c _ _ done s hs
      obtain ⟨hs1, hs2⟩ := hs
      cases hc : children c with
      | null =>
        refine ⟨s, hR.withChild_null hx hc _ _, hs1, ?_⟩
        rw [hs2, List.flatMap_append, List.flatMap_singleton, hc, dumpOf, List.append_nil]
      | node d' children' =>
        obtain ⟨y, hRy, hy⟩ := hR.withChild_node hx hc s
        have hnodes := nodes_child hok hc
        have hbelow := byteLen_child hok (c := c) (by rw [hc]; simp)
        rw [hc] at hbelow
        have hsused : s.1.used = buf.used + d.pfx.length := by
          rw [← s.1.length_contents, hs1, List.length_append, buf.length_contents]
        obtain ⟨down, hdown, hdownc⟩ := strbufPushchar_ok s.1 c (by omega)
        have hdused : down.used = buf.used + d.pfx.length + 1 := by
          rw [← down.length_contents, hdownc, List.length_append, s.1.length_contents, hsused]
          rfl
        obtain ⟨back, wback, hrun, hback, hwback⟩ := ih down s.2 hRy (by omega) (by omega)
        rw [hdownc] at hback
        obtain ⟨up, hup, hupc⟩ := strbufPopchar_ok hback
        refine ⟨(up, wback), ?_, hupc.trans hs1, ?_⟩
        · unfold dumpChildTo
          rw [hy, hdown]
          simp only [bind, Except.bind, hrun, hup]
        · rw [hwback, hs2, hdownc, hs1, List.flatMap_append, List.flatMap_singleton, hc,
            List.append_assoc]
    have hlast : d.last.toNat < 128 := UInt8.lt_iff_toNat_lt.mp hok.last_lt
    have hnodes := nodes_pos d children
    obtain ⟨s', hloop, hs1, hs2⟩ :=
      forChars_run (P := P) hok.last_lt fuel d.first [] (path, wvalues)
      (by omega) hbody ⟨hpath, by simp⟩
    obtain ⟨out, hpop, hout⟩ := strbufPopchars_ok hs1
    refine ⟨out, s'.2, ?_, hout, ?_⟩
    · unfold dumpNodeTo
      rw [hR.pfx hx, hpush]
      simp only [bind, Except.bind, hR.values hx, hR.first hx, hR.last hx, hw, hloop, hpop]
    · rw [hs2, hvalues, List.nil_append, dumpOf, List.append_assoc]

end Reader

/-! ## The order of the lines -/

/-- Keys with their values, a node before its children. -/
def IndexNode.listing : IndexNode → List (CStr × IndexValue)
  | .null => []
  | .node d children =>
    d.values.map (fun v => (d.pfx, v)) ++
      (charsBetween d.first d.last).flatMap (fun c =>
        (children c).listing.map (fun e => (d.pfx ++ c :: e.1, e.2)))

/-- A dump writes one line for each value in the listing. -/
theorem dumpOf_listing (t : IndexNode) :
    ∀ buf, dumpOf id t buf = t.listing.flatMap (fun e => dumpLine (buf ++ e.1) e.2) := by
  induction t with
  | null => intro buf; rfl
  | node d children ih =>
    intro buf
    rw [dumpOf, IndexNode.listing, List.flatMap_append, List.flatMap_map, List.flatMap_assoc, id_eq]
    refine congrArg (_ ++ ·) (List.flatMap_congr (fun c _ => ?_))
    rw [ih, List.flatMap_map]
    refine List.flatMap_congr (fun e _ => ?_)
    simp

/-- The listing has what the contents have. -/
theorem listing_perm (t : IndexNode) : t.listing.Perm (t.contents id) := by
  induction t with
  | null => exact List.Perm.nil
  | node d children ih =>
    rw [IndexNode.listing, IndexNode.contents]
    refine List.perm_append_comm.trans (List.Perm.append_right _ ?_)
    exact List.Perm.flatMap_left _ (fun c _ => (ih c).map _)

/-- The order of the lines: by key, and for one key by priority. -/
def Precedes (a b : CStr × IndexValue) : Prop :=
  a.1 < b.1 ∨ (a.1 = b.1 ∧ a.2.priority ≤ b.2.priority)

theorem append_lt_append {pfx a b : CStr} (h : a < b) : pfx ++ a < pfx ++ b := by
  induction pfx with
  | nil => exact h
  | cons p pfx ih => exact List.cons_lt_cons_iff.mpr (.inr ⟨rfl, ih⟩)

theorem lt_append_cons (pfx : CStr) (c : UInt8) (rest : CStr) : pfx < pfx ++ c :: rest := by
  have h : pfx ++ [] < pfx ++ c :: rest := append_lt_append (List.nil_lt_cons c rest)
  rwa [List.append_nil] at h

theorem charsBetween_sorted (first last : UInt8) : (charsBetween first last).Pairwise (· < ·) := by
  have hlast := last.toNat_lt
  unfold charsBetween
  rw [List.pairwise_map]
  refine List.Pairwise.imp_of_mem (fun ha hb hab => ?_) (List.pairwise_lt_range')
  rw [List.mem_range'] at ha hb
  rw [UInt8.lt_iff_toNat_lt, UInt8.toNat_ofNat', UInt8.toNat_ofNat']
  omega

/-- **The listing is in order** if the values of every key are. -/
theorem listing_sorted (t : IndexNode) :
    (∀ q, (t.lookup q).Pairwise ByPriority) → t.listing.Pairwise Precedes := by
  induction t with
  | null => intro _; exact List.Pairwise.nil
  | node d children ih =>
    intro hvalues
    rw [IndexNode.listing, List.pairwise_append]
    refine ⟨?_, ?_, ?_⟩
    · have hown := hvalues d.pfx
      rw [lookup_node, descend_self] at hown
      rw [List.pairwise_map]
      exact hown.imp (fun h => .inr ⟨rfl, h⟩)
    · rw [List.pairwise_flatMap]
      refine ⟨fun c _ => ?_, (charsBetween_sorted ..).imp (fun hlt => ?_)⟩
      · rw [List.pairwise_map]
        have hbelow : (children c).listing.Pairwise Precedes := by
          refine ih c (fun q => ?_)
          have hq := hvalues (d.pfx ++ c :: q)
          rwa [lookup_node, descend_below] at hq
        refine hbelow.imp (fun h => ?_)
        rcases h with h | ⟨hkey, hprio⟩
        · exact .inl (append_lt_append (List.cons_lt_cons_iff.mpr (.inr ⟨rfl, h⟩)))
        · exact .inr ⟨by rw [hkey], hprio⟩
      · -- lines of different children differ in the character after the prefix
        intro x hx y hy
        obtain ⟨e, _, rfl⟩ := List.mem_map.mp hx
        obtain ⟨f, _, rfl⟩ := List.mem_map.mp hy
        exact .inl (append_lt_append (List.cons_lt_cons_iff.mpr (.inl hlt)))
    · intro x hx y hy
      obtain ⟨v, _, rfl⟩ := List.mem_map.mp hx
      obtain ⟨c, _, hy⟩ := List.mem_flatMap.mp hy
      obtain ⟨e, _, rfl⟩ := List.mem_map.mp hy
      exact .inl (lt_append_cons ..)

/-! ## Dumping what was inserted -/

/-- The line of an entry. -/
def Entry.line (aliasPrefix : Bool) (e : Entry) : List UInt8 :=
  (if aliasPrefix then cstr "alias " else []) ++ e.key ++ cstr " " ++ e.value ++ cstr "\n"

/-- The order of the lines, for entries. -/
def Entry.Before (e f : Entry) : Prop := e.key < f.key ∨ (e.key = f.key ∧ e.priority ≤ f.priority)

/-- The entry that a line of the listing is about. -/
def Entry.ofContent (c : CStr × IndexValue) : Entry := ⟨c.1, c.2.value, c.2.priority⟩

theorem dumpPath_ok (aliasPrefix : Bool) :
    ∃ buf, dumpPath aliasPrefix = some buf ∧
      buf.contents = if aliasPrefix then cstr "alias " else [] := by
  cases aliasPrefix with
  | false => exact ⟨_, rfl, rfl⟩
  | true =>
    obtain ⟨buf, hpush, hbuf⟩ :=
      strbufPushchars_ok (declareStrbufWithStack 128) (cstr "alias ") (by decide)
    refine ⟨buf, ?_, hbuf⟩
    unfold dumpPath
    rw [if_pos rfl, hpush]
    rfl

/--
**A dump lists exactly the contents.** Whatever clean strings are inserted, the dump
of the file that is written (below `2 ^ 28` bytes) consists of one line for each
entry, ordered by key and then by priority, and the path buffer ends with the
contents with which `index_mm_dump_node` was given it.
-/
theorem indexMmDumpTo_written {es : List Entry} (hes : ∀ e ∈ es, e.Clean) (aliasPrefix : Bool) :
    ∃ root, insertEntries indexCreate es = .ok root ∧
      ((indexWrite root).length < 2 ^ 28 →
        ∃ idx, indexMmOpen (indexWrite root) = .ok idx ∧
          ∃ lines : List Entry, lines.Perm es ∧ lines.Pairwise Entry.Before ∧
            ∃ enough, ∀ fuel ≥ enough, ∃ buf,
              indexMmDumpTo fuel idx aliasPrefix =
                .ok (buf, lines.flatMap (Entry.line aliasPrefix)) ∧
              ∀ b ∈ buf, (dumpPath aliasPrefix).map Strbuf.contents = some b.contents) := by
  obtain ⟨root, hrun, hcont⟩ := insertEntries_contains hes
  refine ⟨root, hrun, fun hlt => ?_⟩
  cases root with
  | null => exact absurd hcont.rooted (by simp [Rooted])
  | node d children =>
    obtain ⟨idx, root, hopen, hsize, hroot, hshows⟩ := indexMmOpen_written hcont.ok hlt
    refine ⟨idx, hopen, (IndexNode.node d children).listing.map Entry.ofContent, ?_, ?_,
      (IndexNode.node d children).nodes + 128, fun fuel hfuel => ?_⟩
    · -- the listing has the entries
      have hperm := ((listing_perm (.node d children)).trans hcont.contents_perm).map Entry.ofContent
      rw [List.map_map] at hperm
      refine hperm.trans (List.Perm.of_eq ?_)
      exact List.map_id' es
    · rw [List.pairwise_map]
      refine (listing_sorted (.node d children) (fun q => ?_)).imp (fun h => h)
      rw [hcont.lookup, addValues_eq]
      exact insertAll_sorted List.Pairwise.nil _
    · have hlines : (List.map Entry.ofContent (IndexNode.node d children).listing).flatMap
            (Entry.line aliasPrefix)
          = dumpOf id (.node d children) (if aliasPrefix then cstr "alias " else []) := by
        rw [dumpOf_listing, List.flatMap_map]
        rfl
      rw [hlines]
      obtain ⟨path, hpath, hpathc⟩ := dumpPath_ok aliasPrefix
      cases root with
      | none =>
        -- nothing was inserted, and there is no root to read
        obtain ⟨hv, hp, hnull⟩ := hshows
        refine ⟨none, ?_, by simp⟩
        unfold indexMmDumpTo
        rw [hroot, dumpOf_empty rfl hv hnull]
        rfl
      | some x =>
        have hused : path.used ≤ 6 := by
          rw [← path.length_contents, hpathc]
          cases aliasPrefix <;> decide
        have hlen := length_indexWrite hcont.ok
        have hmax : 2 ^ 28 < SIZE_MAX - BUF_STEP - 6 := by decide
        obtain ⟨buf, wbuf, hdump, hbuf, hwbuf⟩ := dumpNodeTo_writes (mmReader_represents hsize) path
          wrtbufInit hshows hfuel (by omega)
        refine ⟨some buf, ?_, ?_⟩
        · unfold indexMmDumpTo
          rw [hroot]
          simp only [bind, Except.bind, hpath, hdump]
          rw [written_wrtbufFlush, hwbuf, hpathc]
          rfl
        · intro b hb
          obtain rfl := Option.mem_some_iff.mp hb
          rw [hpath, Option.map_some, hbuf]

/-- Three aliases, the last one a beginning of the others. -/
def aliasEntries : List Entry :=
  [⟨cstr "pci:b", cstr "m", 1⟩, ⟨cstr "pci:a", cstr "n", 0⟩, ⟨cstr "pci", cstr "o", 2⟩]

theorem indexMmDumpTo_aliasEntries :
    (∀ e ∈ aliasEntries, e.Clean) ∧
      ∃ root idx, ∃ lines : List Entry, insertEntries indexCreate aliasEntries = .ok root ∧
        (indexWrite root).length < 2 ^ 28 ∧ indexMmOpen (indexWrite root) = .ok idx ∧
        lines.Perm aliasEntries ∧ lines.Pairwise Entry.Before ∧
        ∃ enough, ∀ fuel ≥ enough, ∃ buf,
          indexMmDumpTo fuel idx true = .ok (buf, lines.flatMap (Entry.line true)) := by
  have hclean : ∀ e ∈ aliasEntries, e.Clean := by decide
  obtain ⟨root, hrun, hdump⟩ := indexMmDumpTo_written hclean true
  have hsmall : (indexWrite root).length < 2 ^ 28 := by
    injection hrun with hrun
    rw [← hrun]
    decide
  obtain ⟨idx, hopen, lines, hperm, hsorted, enough, hlines⟩ := hdump hsmall
  refine ⟨hclean, root, idx, lines, hrun, hsmall, hopen, hperm, hsorted, enough,
    fun fuel hfuel => ?_⟩
  obtain ⟨buf, hrun, _⟩ := hlines fuel hfuel
  exact ⟨buf, hrun⟩

end Kmod.Index
