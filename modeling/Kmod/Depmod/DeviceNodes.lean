import Kmod.Depmod.IndexOutput
import Kmod.Libkmod.Loaded
import Kmod.Shared.Scanf

/-!
# Device nodes

A module can ask for a device node, so that it is loaded when the node is opened. It has an alias
with the name of the node, and one with its numbers. depmod puts both into a line of
`modules.devname` (`output_devname`), and `kmod static-nodes` reads the lines and writes them in
the format somebody else wants.

The aliases of a module come in any order. A module gets a line just if it has both
(`deviceNode_isSome_iff`), and of every line static-nodes makes the node it was written for
(`staticNodes_devname`).
-/

namespace Kmod.DeviceNodes

open Kmod.Depmod Kmod.Numbers Kmod.Scanf ModulesOrder

variable {μ : Type}

/-! ## modules.devname -/

/-- `type`, `major` and `minor` of a node. -/
structure Numbers where
  type : UInt8
  major : Nat
  minor : Nat
  deriving DecidableEq

/-- `"char-major-%u-%u"` and `"block-major-%u-%u"` -/
def majorFormat (kind : CStr) : List Directive :=
  kind.map .lit ++ (cstr "-major-").map .lit ++ [.uint, .lit 45, .uint]

/-- The numbers in an alias. -/
def majorAlias (value : CStr) : Option Numbers :=
  match sscanf (majorFormat (cstr "char")) value with
  | [.uint major, .uint minor] => some ⟨99, major, minor⟩
  | _ =>
    match sscanf (majorFormat (cstr "block")) value with
    | [.uint major, .uint minor] => some ⟨98, major, minor⟩
    | _ => none

/-- The loop of `output_devname` over the aliases of a module: `devname`, and the numbers if
there is a `type`. -/
def devnameLoop : List CStr → Option CStr → Option Numbers → Option CStr × Option Numbers
  | [], devname, numbers => (devname, numbers)
  | value :: values, devname, numbers =>
    let devname := if (cstr "devname:").isPrefixOf value then
      some (value.drop (cstr "devname:").length) else devname
    let numbers := if (cstr "devname:").isPrefixOf value then numbers
      else (majorAlias value).or numbers
    if numbers.isSome ∧ devname.isSome then (devname, numbers)
    else devnameLoop values devname numbers

/-- The node of a module, if it has a name and numbers. -/
def deviceNode (values : List CStr) : Option (CStr × Numbers) :=
  match devnameLoop values none none with
  | (some devname, some numbers) => some (devname, numbers)
  | _ => none

/-- `"%s %s %c%u:%u"` -/
def nodeFormat : List Directive := [.str, .blank, .str, .blank, .char, .uint, .lit 58, .uint]

/-- A line of `modules.devname`. -/
def devnameLine (modname devname : CStr) (n : Numbers) : CStr :=
  fprintf (nodeFormat ++ [.lit 10])
    [.str modname, .str devname, .char n.type, .uint n.major, .uint n.minor]

/-- The modules with a node. -/
def deviceNodes (d : Depmod μ) (values : μ → List CStr) : List (CStr × CStr × Numbers) :=
  d.modules.filterMap (fun mod => (deviceNode (values mod)).map (fun n => (d.modname mod, n)))

/-- `output_devname` -/
def outputDevname (d : Depmod μ) (values : μ → List CStr) : CStr :=
  if deviceNodes d values = [] then []
  else cstr "# Device nodes to trigger on-demand module loading.\n" ++
    (deviceNodes d values).flatMap (fun n => devnameLine n.1 n.2.1 n.2.2)

/-! ## static-nodes -/

/-- `write_human` -/
def writeHuman (modname devname : CStr) (n : Numbers) : CStr :=
  cstr "Module: " ++ modname ++ cstr "\n\tDevice node: /dev/" ++ devname ++
    cstr "\n\t\tType: " ++ (if n.type = 99 then cstr "character" else cstr "block") ++
    cstr " device\n\t\tMajor: " ++ printNat 10 n.major ++ cstr "\n\t\tMinor: " ++
    printNat 10 n.minor ++ cstr "\n"

/-- `write_tmpfiles` -/
def writeTmpfiles (_modname devname : CStr) (n : Numbers) : CStr :=
  (if 47 ∈ devname then
    cstr "d /dev/" ++ ((devname.reverse.dropWhile (· ≠ 47)).drop 1).reverse ++
      cstr " 0755 - - -\n"
  else []) ++
    (n.type :: cstr "! /dev/") ++ devname ++ cstr " 0600 - - - " ++ printNat 10 n.major ++
      cstr ":" ++ printNat 10 n.minor ++ cstr "\n"

/-- `write_devname` -/
def writeDevname (modname devname : CStr) (n : Numbers) : CStr := devnameLine modname devname n

/-- `static_nodes_formats`, by name. -/
def staticNodesFormat (name : CStr) : Option (CStr → CStr → Numbers → CStr) :=
  if name = cstr "human" then some writeHuman
  else if name = cstr "tmpfiles" then some writeTmpfiles
  else if name = cstr "devname" then some writeDevname
  else none

/-- The loop of `do_static_nodes` over the lines: what is written, and whether all lines are
valid. -/
def staticNodesLoop (write : CStr → CStr → Numbers → CStr) :
    Nat → CStr → Except Fault (CStr × Bool)
  | 0, _ => .error .outOfFuel
  | fuel + 1, rest =>
    match fgets PATH_MAX rest with
    | none => .ok ([], true)
    | some (buf, rest) =>
      if buf.head? = some 35 then staticNodesLoop write fuel rest
      else do
        let (out, valid) ← staticNodesLoop write fuel rest
        match sscanf nodeFormat (buf.takeWhile (· ≠ 0)) with
        | [.str modname, .str devname, .char type, .uint maj, .uint min] =>
          if type = 99 ∨ type = 98 then .ok (write modname devname ⟨type, maj, min⟩ ++ out, valid)
          else .ok (out, false)
        | _ => .ok (out, false)

/--
`do_static_nodes` for a format, with what is in `modules.devname` or `errno`: what is written,
and whether it succeeds.
-/
def doStaticNodes (format : CStr) (devnames : Except Int CStr) : Except Fault (CStr × Bool) :=
  match staticNodesFormat format with
  | none => .ok ([], false)
  | some write =>
    match devnames with
    | .error errno => .ok ([], errno = ENOENT)
    | .ok content => staticNodesLoop write (content.length + 1) content

/-! ## What a module asks for -/

/-- The name of a node is in an alias of its own. -/
def IsDevname (value : CStr) : Prop := (cstr "devname:").isPrefixOf value = true

instance (value : CStr) : Decidable (IsDevname value) :=
  inferInstanceAs (Decidable (_ = true))

theorem IsDevname.eq {value : CStr} (h : IsDevname value) :
    cstr "devname:" ++ value.drop (cstr "devname:").length = value := by
  obtain ⟨name, rfl⟩ := List.isPrefixOf_iff_prefix.mp h
  rw [List.drop_left]

/-- What an alias with numbers looks like. -/
theorem majorAlias_some {value : CStr} {n : Numbers} (h : majorAlias value = some n) :
    (n.type = 99 ∨ n.type = 98) ∧ n.major < 2 ^ 32 ∧ n.minor < 2 ^ 32 ∧
      value.head? = some n.type := by
  have hscanned : ∀ {kind : UInt8} {format : List Directive} {major minor : Nat},
      sscanf (.lit kind :: format) value = [.uint major, .uint minor] →
      major < 2 ^ 32 ∧ minor < 2 ^ 32 ∧ value.head? = some kind := by
    intro kind format major minor hscan
    have hmem : ∀ n, .uint n ∈ [Value.uint major, .uint minor] → n < 2 ^ 32 :=
      fun n hn => sscanf_uint_lt _ (hscan ▸ hn)
    exact ⟨hmem major (by simp), hmem minor (by simp),
      head_of_sscanf_lit (hscan ▸ List.cons_ne_nil _ _)⟩
  unfold majorAlias at h
  split at h
  · rename_i major minor hscan
    cases h
    exact ⟨.inl rfl, hscanned hscan⟩
  · split at h
    · rename_i major minor hscan
      cases h
      exact ⟨.inr rfl, hscanned hscan⟩
    · cases h

theorem not_isDevname_of_majorAlias {value : CStr} {n : Numbers} (h : majorAlias value = some n) :
    ¬ IsDevname value := by
  intro hdev
  obtain ⟨htype, -, -, hhead⟩ := majorAlias_some h
  rw [← hdev.eq] at hhead
  have hd : (100 : UInt8) = n.type := Option.some.inj hhead
  rcases htype with htype | htype <;> exact absurd (hd.trans htype) (by decide)

/-- What the loop has found so far is from the aliases it has seen. -/
structure Found (seen : List CStr) (devname : Option CStr) (numbers : Option Numbers) : Prop where
  name_mem : ∀ name ∈ devname, cstr "devname:" ++ name ∈ seen
  numbers_mem : ∀ n ∈ numbers, ∃ value ∈ seen, majorAlias value = some n
  name_found : (∃ value ∈ seen, IsDevname value) → devname.isSome = true
  numbers_found : (∃ value ∈ seen, (majorAlias value).isSome) → numbers.isSome = true

/-- **One more alias.** -/
theorem Found.step {seen : List CStr} {devname : Option CStr} {numbers : Option Numbers}
    (h : Found seen devname numbers) (value : CStr) :
    Found (seen ++ [value])
      (if (cstr "devname:").isPrefixOf value then
        some (value.drop (cstr "devname:").length) else devname)
      (if (cstr "devname:").isPrefixOf value then numbers
        else (majorAlias value).or numbers) := by
  have hlast : value ∈ seen ++ [value] := List.mem_append_right _ (List.mem_singleton_self _)
  have hor : ∀ n ∈ (majorAlias value).or numbers,
      ∃ v ∈ seen ++ [value], majorAlias v = some n := by
    intro n hn
    rcases Option.or_eq_some_iff.mp hn with hn | ⟨-, hn⟩
    · exact ⟨value, hlast, hn⟩
    · obtain ⟨v, hv, hnum⟩ := h.numbers_mem n hn
      exact ⟨v, List.mem_append_left _ hv, hnum⟩
  by_cases hdev : IsDevname value
  · have hpos : (cstr "devname:").isPrefixOf value = true := hdev
    rw [if_pos hpos, if_pos hpos]
    refine ⟨?_, ?_, fun _ => rfl, ?_⟩
    · intro name hname
      obtain rfl := Option.some.inj hname
      rw [hdev.eq]
      exact hlast
    · intro n hn
      obtain ⟨v, hv, hnum⟩ := h.numbers_mem n hn
      exact ⟨v, List.mem_append_left _ hv, hnum⟩
    · rintro ⟨v, hv, hnum⟩
      rcases List.mem_append.mp hv with hv | hv
      · exact h.numbers_found ⟨v, hv, hnum⟩
      · obtain rfl := List.mem_singleton.mp hv
        obtain ⟨n, hn⟩ := Option.isSome_iff_exists.mp hnum
        exact absurd hdev (not_isDevname_of_majorAlias hn)
  · have hneg : ¬ (cstr "devname:").isPrefixOf value = true := hdev
    rw [if_neg hneg, if_neg hneg]
    refine ⟨?_, hor, ?_, ?_⟩
    · exact fun name hname => List.mem_append_left _ (h.name_mem name hname)
    · rintro ⟨v, hv, hvdev⟩
      rcases List.mem_append.mp hv with hv | hv
      · exact h.name_found ⟨v, hv, hvdev⟩
      · exact absurd (List.mem_singleton.mp hv ▸ hvdev) hdev
    · rintro ⟨v, hv, hnum⟩
      rw [Option.isSome_or, Bool.or_eq_true]
      rcases List.mem_append.mp hv with hv | hv
      · exact .inr (h.numbers_found ⟨v, hv, hnum⟩)
      · exact .inl (List.mem_singleton.mp hv ▸ hnum)

/-- The loop ends with something found, and if it ends early it has found all it looks for. -/
theorem devnameLoop_found (values : List CStr) : ∀ {seen : List CStr} {devname : Option CStr}
    {numbers : Option Numbers}, Found seen devname numbers →
    ∃ devname' numbers', devnameLoop values devname numbers = (devname', numbers') ∧
      ((numbers'.isSome ∧ devname'.isSome) ∧ (∃ first, first <+: seen ++ values ∧
        Found first devname' numbers') ∨ Found (seen ++ values) devname' numbers') := by
  induction values with
  | nil => exact fun h => ⟨_, _, rfl, .inr (by rwa [List.append_nil])⟩
  | cons value values ih =>
    intro seen devname numbers h
    have hstep := h.step value
    have happend : seen ++ value :: values = (seen ++ [value]) ++ values := List.append_cons ..
    rw [devnameLoop, happend]
    generalize (if (cstr "devname:").isPrefixOf value = true then
      some (value.drop (cstr "devname:").length) else devname) = devname' at hstep ⊢
    generalize (if (cstr "devname:").isPrefixOf value = true then numbers
      else (majorAlias value).or numbers) = numbers' at hstep ⊢
    by_cases hboth : numbers'.isSome = true ∧ devname'.isSome = true
    · rw [if_pos hboth]
      exact ⟨_, _, rfl, .inl ⟨hboth, seen ++ [value], List.prefix_append .., hstep⟩⟩
    · rw [if_neg hboth]
      exact ih hstep

theorem found_nil : Found [] none none :=
  ⟨fun _ h => (Option.not_mem_none _ h).elim, fun _ h => (Option.not_mem_none _ h).elim,
    fun ⟨_, h, _⟩ => absurd h List.not_mem_nil, fun ⟨_, h, _⟩ => absurd h List.not_mem_nil⟩

/-- The name and the numbers of a node are from its aliases. -/
theorem deviceNode_some {values : List CStr} {devname : CStr} {n : Numbers}
    (h : deviceNode values = some (devname, n)) :
    cstr "devname:" ++ devname ∈ values ∧ ∃ value ∈ values, majorAlias value = some n := by
  obtain ⟨devname', numbers', hloop, hfound⟩ := devnameLoop_found values found_nil
  have hsome : devname' = some devname ∧ numbers' = some n := by
    unfold deviceNode at h
    rw [hloop] at h
    cases devname' with
    | none => cases h
    | some devname' =>
      cases numbers' with
      | none => cases h
      | some numbers' => cases h; exact ⟨rfl, rfl⟩
  obtain ⟨rfl, rfl⟩ := hsome
  obtain ⟨seen, hseen, hfound⟩ : ∃ seen, seen ⊆ values ∧ Found seen (some devname) (some n) := by
    rcases hfound with ⟨-, first, hfirst, hfound⟩ | hfound
    · exact ⟨first, hfirst.subset, hfound⟩
    · exact ⟨_, List.Subset.refl _, hfound⟩
  obtain ⟨value, hvalue, hn⟩ := hfound.numbers_mem n rfl
  exact ⟨hseen (hfound.name_mem devname rfl), value, hseen hvalue, hn⟩

/-- **A module gets a node** just if it has a name and numbers for it, in any order. -/
theorem deviceNode_isSome_iff (values : List CStr) :
    (deviceNode values).isSome = true ↔
      (∃ value ∈ values, IsDevname value) ∧ ∃ value ∈ values, (majorAlias value).isSome := by
  constructor
  · intro h
    obtain ⟨⟨devname, n⟩, hnode⟩ := Option.isSome_iff_exists.mp h
    obtain ⟨hmem, value, hvalue, hn⟩ := deviceNode_some hnode
    exact ⟨⟨_, hmem, List.isPrefixOf_iff_prefix.mpr (List.prefix_append ..)⟩,
      value, hvalue, by rw [hn]; rfl⟩
  · rintro ⟨hname, hnumbers⟩
    obtain ⟨devname, numbers, hloop, hfound⟩ := devnameLoop_found values found_nil
    have hboth : numbers.isSome = true ∧ devname.isSome = true := by
      rcases hfound with ⟨hboth, -⟩ | hfound
      · exact hboth
      · exact ⟨hfound.numbers_found hnumbers, hfound.name_found hname⟩
    obtain ⟨n, rfl⟩ := Option.isSome_iff_exists.mp hboth.1
    obtain ⟨name, rfl⟩ := Option.isSome_iff_exists.mp hboth.2
    unfold deviceNode
    rw [hloop]
    rfl

/-! ## The lines -/

/-- The names do not have characters the lines cannot carry, and the lines fit into the buffer. -/
structure Plain (d : Depmod μ) (values : μ → List CStr) : Prop where
  modname : ∀ mod ∈ d.modules,
    Word (d.modname mod) ∧ 0 ∉ d.modname mod ∧ (d.modname mod).head? ≠ some 35
  devname : ∀ mod ∈ d.modules, ∀ name, cstr "devname:" ++ name ∈ values mod →
    Word name ∧ 0 ∉ name ∧ (d.modname mod).length + name.length ≤ 4000

/-- A line that static-nodes can read. -/
structure Line (modname devname : CStr) (n : Numbers) : Prop where
  name : Word modname ∧ 0 ∉ modname ∧ modname.head? ≠ some 35
  device : Word devname ∧ 0 ∉ devname
  length : modname.length + devname.length ≤ 4000
  type : n.type = 99 ∨ n.type = 98
  major : n.major < 2 ^ 32
  minor : n.minor < 2 ^ 32

theorem Plain.line {d : Depmod μ} {values : μ → List CStr} (h : Plain d values) :
    ∀ n ∈ deviceNodes d values, Line n.1 n.2.1 n.2.2 := by
  intro n hn
  obtain ⟨mod, hmod, hmap⟩ := List.mem_filterMap.mp hn
  obtain ⟨⟨devname, numbers⟩, hnode, rfl⟩ := Option.map_eq_some_iff.mp hmap
  obtain ⟨hmem, value, -, hnumbers⟩ := deviceNode_some hnode
  obtain ⟨hword, hnul, hlen⟩ := h.devname mod hmod devname hmem
  obtain ⟨htype, hmajor, hminor, -⟩ := majorAlias_some hnumbers
  exact ⟨h.modname mod hmod, ⟨hword, hnul⟩, hlen, htype, hmajor, hminor⟩

section Line

variable {modname devname : CStr} {n : Numbers}

/-- The line without its newline. -/
def lineText (modname devname : CStr) (n : Numbers) : CStr :=
  fprintf nodeFormat
    [.str modname, .str devname, .char n.type, .uint n.major, .uint n.minor]

theorem devnameLine_eq (modname devname : CStr) (n : Numbers) :
    devnameLine modname devname n = lineText modname devname n ++ [10] := by
  simp [devnameLine, lineText, nodeFormat, fprintf]

theorem lineText_eq (modname devname : CStr) (n : Numbers) :
    lineText modname devname n = modname ++ 32 :: (devname ++ 32 :: n.type ::
      (printNat 10 n.major ++ 58 :: printNat 10 n.minor)) := by
  simp [lineText, nodeFormat, fprintf]

theorem Line.chars (h : Line modname devname n) :
    ∀ c ∈ lineText modname devname n, c ≠ 0 ∧ c ≠ 10 := by
  have hword : ∀ {s : CStr}, Word s → 0 ∉ s → ∀ c ∈ s, c ≠ 0 ∧ c ≠ 10 := by
    intro s hs hnul c hc
    refine ⟨fun h0 => hnul (h0 ▸ hc), ?_⟩
    rintro rfl
    exact absurd (hs.chars 10 hc) (by decide)
  have hdigits : ∀ {k : Nat}, ∀ c ∈ printNat 10 k, c ≠ 0 ∧ c ≠ 10 := by
    intro k c hc
    have hne := ne_zero_of_mem_printInt (z := k) c hc
    exact ⟨hne.1, hne.2.1⟩
  have htype : n.type ≠ 0 ∧ n.type ≠ 10 := by
    rcases h.type with htype | htype <;> rw [htype] <;> decide
  rw [lineText_eq]
  intro c hc
  simp only [List.mem_append, List.mem_cons] at hc
  rcases hc with hc | rfl | hc | rfl | rfl | hc | rfl | hc
  · exact hword h.name.1 h.name.2.1 c hc
  · decide
  · exact hword h.device.1 h.device.2 c hc
  · decide
  · exact htype
  · exact hdigits c hc
  · decide
  · exact hdigits c hc

theorem Line.fits (h : Line modname devname n) :
    (lineText modname devname n).length ≤ 4094 := by
  have hdigits : ∀ {k : Nat}, k < 2 ^ 32 → (printNat 10 k).length ≤ 10 :=
    fun hk => length_printNat_le (by decide) (Nat.lt_trans hk (by decide))
  have hmajor := hdigits h.major
  have hminor := hdigits h.minor
  have hlen := h.length
  rw [lineText_eq]
  simp only [List.length_append, List.length_cons]
  omega

/-- **A line is read as what it was written for.** -/
theorem Line.sscanf (h : Line modname devname n) :
    sscanf nodeFormat (lineText modname devname n ++ [10])
      = [.str modname, .str devname, .char n.type, .uint n.major, .uint n.minor] := by
  have hblank : ∀ s : CStr, EndsWord (32 :: s) := by
    intro s c hc
    obtain rfl : 32 = c := Option.some.inj hc
    rfl
  have hnext : ∀ {s : CStr} (rest : CStr), Word s → ∀ c ∈ (s ++ rest).head?, isspace c = false := by
    intro s rest hs c hc
    cases s with
    | nil => exact absurd rfl hs.ne_nil
    | cons d s => exact hs.chars c (Option.some.inj hc ▸ List.mem_cons_self ..)
  have htype : isspace n.type = false := by
    rcases h.type with htype | htype <;> rw [htype] <;> decide
  have hcolon : ∀ s : CStr, Stops 10 (58 :: s) := by
    intro s c hc d hd
    obtain rfl : 58 = c := Option.some.inj hc
    exact absurd (show none = some d from hd) (Option.some_ne_none d).symm
  refine sscanf_fprintf (.str h.name.1 (hblank _) (.blank ?_ (.str h.device.1 (hblank _)
    (.blank ?_ (.char _ (.uint h.major (hcolon _) (.lit _ (.uint h.minor (stops_newline [])
      (.nil _)))))))))
  · rw [fprintf, List.append_assoc]
    exact hnext _ h.device.1
  · intro c hc
    obtain rfl : n.type = c := Option.some.inj hc
    exact htype

end Line

/-! ## The result -/

theorem staticNodesLoop_lines (write : CStr → CStr → Numbers → CStr)
    {nodes : List (CStr × CStr × Numbers)} : ∀ {fuel : Nat},
      (∀ n ∈ nodes, Line n.1 n.2.1 n.2.2) → nodes.length < fuel →
      staticNodesLoop write fuel (nodes.flatMap (fun n => devnameLine n.1 n.2.1 n.2.2))
        = .ok (nodes.flatMap (fun n => write n.1 n.2.1 n.2.2), true) := by
  induction nodes with
  | nil =>
    intro fuel _ hfuel
    cases fuel with
    | zero => exact absurd hfuel (Nat.not_lt_zero _)
    | succ fuel => rfl
  | cons n nodes ih =>
    intro fuel hlines hfuel
    cases fuel with
    | zero => exact absurd hfuel (Nat.not_lt_zero _)
    | succ fuel =>
      obtain ⟨modname, devname, n⟩ := n
      have hline : Line modname devname n := hlines _ (List.mem_cons_self ..)
      have hrest := @ih fuel (fun n hn => hlines n (List.mem_cons_of_mem _ hn))
        (Nat.lt_of_succ_lt_succ hfuel)
      have hfits : (lineText modname devname n).length + 1 < PATH_MAX :=
        Nat.lt_succ_of_le (Nat.succ_le_succ hline.fits)
      have hbuf : fgets PATH_MAX ((⟨modname, devname, n⟩ :: nodes).flatMap
          (fun n => devnameLine n.1 n.2.1 n.2.2))
            = some (lineText modname devname n ++ [10],
              nodes.flatMap (fun n => devnameLine n.1 n.2.1 n.2.2)) := by
        rw [List.flatMap_cons, devnameLine_eq, List.append_assoc, List.singleton_append]
        exact Loaded.fgets_whole (fun hmem => (hline.chars 10 hmem).2 rfl) hfits _
      have hnul := Loaded.takeWhile_line hline.chars
      have hhash : (lineText modname devname n ++ [10]).head? ≠ some 35 := by
        rw [lineText_eq]
        obtain ⟨hword, -, hhead⟩ := hline.name
        cases modname with
        | nil => exact absurd rfl hword.ne_nil
        | cons c modname => exact hhead
      rw [staticNodesLoop, hbuf]
      dsimp only
      rw [if_neg hhash, hrest, hnul, hline.sscanf]
      exact if_pos hline.type

theorem length_le_lines (nodes : List (CStr × CStr × Numbers)) :
    nodes.length ≤ (nodes.flatMap (fun n => devnameLine n.1 n.2.1 n.2.2)).length := by
  induction nodes with
  | nil => exact Nat.le_refl 0
  | cons n nodes ih =>
    rw [List.flatMap_cons, devnameLine_eq, List.length_append, List.length_append,
      List.length_cons, List.length_singleton]
    omega

/-- **Every node arrives**: for each module that asks for one, static-nodes writes it in the format
that was chosen, under the name and the numbers of its aliases, and it writes nothing else. The
names are `Plain`: words that are not empty, no module's name begins with `#`, and both names
have at most 4000 bytes together. -/
theorem staticNodes_devname {d : Depmod μ} {values : μ → List CStr} (h : Plain d values)
    {format : CStr} {write : CStr → CStr → Numbers → CStr}
    (hformat : staticNodesFormat format = some write) :
    doStaticNodes format (.ok (outputDevname d values))
        = .ok ((deviceNodes d values).flatMap (fun n => write n.1 n.2.1 n.2.2), true) ∧
      ∀ mod ∈ d.modules, ((deviceNode (values mod)).isSome = true ↔
        (∃ value ∈ values mod, IsDevname value) ∧
          ∃ value ∈ values mod, (majorAlias value).isSome) ∧
        ∀ devname n, deviceNode (values mod) = some (devname, n) →
          cstr "devname:" ++ devname ∈ values mod ∧
            ∃ value ∈ values mod, majorAlias value = some n := by
  refine ⟨?_, fun mod _ => ⟨deviceNode_isSome_iff (values mod), fun _ _ => deviceNode_some⟩⟩
  have hlines := h.line
  have hlen := length_le_lines (deviceNodes d values)
  unfold doStaticNodes
  rw [hformat]
  show staticNodesLoop write _ (outputDevname d values) = _
  unfold outputDevname
  by_cases hnone : deviceNodes d values = []
  · rw [if_pos hnone, hnone]
    rfl
  · have hheader : cstr "# Device nodes to trigger on-demand module loading.\n"
        = cstr "# Device nodes to trigger on-demand module loading." ++ [10] := by decide
    rw [if_neg hnone, hheader, List.append_assoc, List.singleton_append, staticNodesLoop,
      Loaded.fgets_whole (by decide) (by decide)]
    dsimp only
    rw [if_pos (by decide)]
    refine staticNodesLoop_lines write hlines ?_
    rw [List.length_append, List.length_cons]
    omega

/-- A depmod with two modules, of which the second asks for a node. -/
def sndDepmod : Depmod Nat where
  modules := [0, 1]
  modname mod := if mod = 0 then cstr "snd" else cstr "snd_timer"
  path _ := []
  relpath _ := none
  deps _ := []
  users _ := 0
  idx mod := mod
  depSortIdx _ := 0
  visited _ := false

def sndAliases (mod : Nat) : List CStr :=
  if mod = 0 then [cstr "char-major-116-*"]
  else [cstr "devname:snd/timer", cstr "char-major-116-33"]

/-- The node gets its directory. -/
theorem staticNodes_devname_snd :
    doStaticNodes (cstr "tmpfiles") (.ok (outputDevname sndDepmod sndAliases))
      = .ok (cstr "d /dev/snd 0755 - - -\nc! /dev/snd/timer 0600 - - - 116:33\n", true) := by
  have hplain : Plain sndDepmod sndAliases := by
    have hmod : ∀ mod ∈ sndDepmod.modules, mod = 0 ∨ mod = 1 := by
      intro mod hmod
      rcases List.mem_cons.mp hmod with hmod | hmod
      · exact .inl hmod
      · exact .inr (List.mem_singleton.mp hmod)
    refine ⟨fun mod hmem => ?_, fun mod hmem name hname => ?_⟩
    · rcases hmod mod hmem with rfl | rfl <;>
        exact ⟨⟨by decide, by decide⟩, by decide, by decide⟩
    · have hother : ∀ {value : CStr}, value.head? = some 99 → cstr "devname:" ++ name ≠ value := by
        rintro value hvalue rfl
        exact absurd (show some (100 : UInt8) = some 99 from hvalue) (by decide)
      rcases hmod mod hmem with rfl | rfl
      · exact absurd (List.mem_singleton.mp hname) (hother rfl)
      · rcases List.mem_cons.mp hname with h | h
        · obtain rfl : name = cstr "snd/timer" := List.append_cancel_left
            (show cstr "devname:" ++ name = cstr "devname:" ++ cstr "snd/timer" from h)
          exact ⟨⟨by decide, by decide⟩, by decide, by decide⟩
        · exact absurd (List.mem_singleton.mp h) (hother rfl)
  exact (@staticNodes_devname _ _ _ hplain _ writeTmpfiles rfl).1.trans (by decide)

end Kmod.DeviceNodes
