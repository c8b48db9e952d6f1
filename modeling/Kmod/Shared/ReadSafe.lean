import Kmod.Base
import Kmod.Lib.Memory

/-!
# Reading and writing through interruptions

`read`, `pread` and `write` may transfer less than they were asked for, and may be interrupted
before they transfer anything. `read_str_safe`, `pread_str_safe` and `write_str_safe` call them in
one and the same loop until everything is there (`safeLoop`).

The system answers one call after the other, in any way its interface allows. Whatever the answers
are, a loop that ends without an error has transferred what one call could have: the file as far as
the buffer goes, with a NUL behind it, or all bytes in their order (`strSafe_transfers`).
-/

namespace Kmod.ReadSafe

open Kmod Kmod.Memory

/-! ## The model -/

def EINTR : Int := 4

/-- An answer of the system: that it has transferred something, or an error number. How much it
has transferred is for the call to say, since it depends on what there is. -/
inductive Answer where
  | got (n : Nat)
  | failed (errno : Nat) (pos : 0 < errno)

/-- `errno == EAGAIN || errno == EINTR` -/
def Answer.retry : Answer → Bool
  | .got _ => false
  | .failed errno _ => (errno : Int) = EAGAIN || (errno : Int) = EINTR

/-- The loop: what is returned and the state at the end, or `none` if the system has not answered
yet. `transfer` is a call that is not refused, with the number that was answered, `todo` and
`done`. -/
def safeLoop {σ : Type} (transfer : Nat → Nat → Nat → σ → Except Fault (Nat × σ)) :
    List Answer → Nat → Nat → σ → Except Fault (Option (Int × σ))
  | [], _, _, _ => .ok none
  | .failed errno pos :: answers, todo, done, s =>
    if (Answer.failed errno pos).retry then
      -- `continue` goes to the condition
      if todo > 0 then safeLoop transfer answers todo done s else .ok (some (done, s))
    else .ok (some (-errno, s))
  | .got n :: answers, todo, done, s => do
    let (r, s) ← transfer n todo done s
    if r = 0 then .ok (some (done, s))
    else if todo - r > 0 then safeLoop transfer answers (todo - r) (done + r) s
    else .ok (some (done + r, s))

/-- `read(fd, buf + done, todo)`: at least one byte, unless the file is at its end or nothing is
asked for. The state is the buffer and what is left of the file. -/
def sysRead (n todo done : Nat) (s : List UInt8 × List UInt8) :
    Except Fault (Nat × (List UInt8 × List UInt8)) := do
  let r := min (n + 1) (min todo s.2.length)
  let buf ← inBlock (putRange s.1 done (s.2.take r))
  .ok (r, (buf, s.2.drop r))

/-- `pread(fd, buf + done, todo, off + done)`, where the state is the buffer. -/
def sysPread (file : List UInt8) (off n todo done : Nat) (buf : List UInt8) :
    Except Fault (Nat × List UInt8) := do
  let rest := file.drop (off + done)
  let r := min (n + 1) (min todo rest.length)
  let buf ← inBlock (putRange buf done (rest.take r))
  .ok (r, buf)

/-- `write(fd, buf + done, todo)`, which may also take nothing. The state is what has arrived. -/
def sysWrite (buf : List UInt8) (n todo done : Nat) (out : List UInt8) :
    Except Fault (Nat × List UInt8) := do
  let r := min n todo
  let bytes ← inBlock (getRange buf done r)
  .ok (r, out ++ bytes)

/-- `buf[done] = '\0'`, if nothing has failed. -/
def terminate (ret : Int) (buf : List UInt8) : Except Fault (List UInt8) :=
  if ret < 0 then .ok buf else inBlock (putRange buf ret.toNat [0])

/-- `read_str_safe`, with a buffer that is not empty: what it returns, the buffer, and what has not
been read. -/
def readStrSafe (answers : List Answer) (buf file : List UInt8) :
    Except Fault (Option (Int × (List UInt8 × List UInt8))) := do
  match ← safeLoop sysRead answers (buf.length - 1) 0 (buf, file) with
  | none => .ok none
  | some (ret, (buf, rest)) => do
    let buf ← terminate ret buf
    .ok (some (ret, (buf, rest)))

/-- `pread_str_safe` -/
def preadStrSafe (answers : List Answer) (buf file : List UInt8) (off : Nat) :
    Except Fault (Option (Int × List UInt8)) := do
  match ← safeLoop (sysPread file off) answers (buf.length - 1) 0 buf with
  | none => .ok none
  | some (ret, buf) => do
    let buf ← terminate ret buf
    .ok (some (ret, buf))

/-- `write_str_safe`: what it returns, and what has arrived. -/
def writeStrSafe (answers : List Answer) (buf : List UInt8) :
    Except Fault (Option (Int × List UInt8)) :=
  safeLoop (sysWrite buf) answers buf.length 0 []

/-! ## The loop -/

/-- The answers keep the loop waiting: none is an error, and there are fewer transfers than
bytes, unless nothing has been answered at all. -/
def Waits (total : Nat) (answers : List Answer) : Prop :=
  (∀ a ∈ answers, a.retry = true ∨ ∃ n, a = .got n) ∧
    (answers = [] ∨ (answers.filter (fun a => !a.retry)).length < total)

/-- How the loop ends: with everything, with less since a call has transferred nothing, or with an
error. -/
inductive Ends {σ : Type} (P : Nat → σ → Prop) (E : Nat → Nat → Prop) (total : Nat)
    (answers : List Answer) : Option (Int × σ) → Prop where
  | waits : Waits total answers → Ends P E total answers none
  | all {s : σ} : P total s → Ends P E total answers (some (total, s))
  | short {n d : Nat} {s : σ} : .got n ∈ answers → d ≤ total → P d s → E n d →
      Ends P E total answers (some (d, s))
  | failed {d errno : Nat} {pos : 0 < errno} {s : σ} : .failed errno pos ∈ answers →
      (Answer.failed errno pos).retry = false → P d s → Ends P E total answers (some (-errno, s))

/-- What a call does: from `done` bytes it goes to more, or says that there is nothing. -/
structure Steps {σ : Type} (transfer : Nat → Nat → Nat → σ → Except Fault (Nat × σ))
    (P : Nat → σ → Prop) (E : Nat → Nat → Prop) (total : Nat) : Prop where
  step : ∀ {n todo done : Nat} {s : σ}, todo + done = total → P done s →
    ∃ r s', transfer n todo done s = .ok (r, s') ∧ r ≤ todo ∧ P (done + r) s' ∧
      (r = 0 → 0 < todo → E n done)

/-- **The loop**, by induction on the answers. -/
theorem safeLoop_ends {σ : Type} {transfer : Nat → Nat → Nat → σ → Except Fault (Nat × σ)}
    {P : Nat → σ → Prop} {E : Nat → Nat → Prop} {total : Nat} (h : Steps transfer P E total)
    (answers : List Answer) :
    ∀ {todo done : Nat} {s : σ}, todo + done = total → P done s →
      ∃ out, safeLoop transfer answers todo done s = .ok out ∧
        ((out = none ∧ Waits todo answers) ∨ out ≠ none ∧ Ends P E total answers out) := by
  induction answers with
  | nil => exact fun _ _ => ⟨none, rfl, .inl ⟨rfl, by simp [Waits]⟩⟩
  | cons a answers ih =>
    intro todo done s hsum hs
    -- what is said of the other answers is said of all of them
    have hlift : ∀ {out : Option (Int × σ)}, Ends P E total answers out → out ≠ none →
        Ends P E total (a :: answers) out := by
      intro out hends hne
      cases hends with
      | waits _ => exact absurd rfl hne
      | all hp => exact .all hp
      | short hmem hle hp he => exact .short (List.mem_cons_of_mem _ hmem) hle hp he
      | failed hmem hretry hp => exact .failed (List.mem_cons_of_mem _ hmem) hretry hp
    unfold safeLoop
    cases a with
    | failed errno pos =>
      dsimp only
      split
      · next hretry =>
        split
        · next hpos =>
          obtain ⟨out, hrun, hcase⟩ := ih hsum hs
          refine ⟨out, hrun, ?_⟩
          rcases hcase with ⟨rfl, hfine, hcount⟩ | ⟨hne, hends⟩
          · refine .inl ⟨rfl, fun a ha => ?_, ?_⟩
            · rcases List.mem_cons.mp ha with rfl | ha
              · exact .inl hretry
              · exact hfine a ha
            · rw [List.filter_cons_of_neg (by simp [hretry])]
              rcases hcount with rfl | hcount
              · exact .inr hpos
              · exact .inr hcount
          · exact .inr ⟨hne, hlift hends hne⟩
        · next hzero =>
          have hdone : done = total := by omega
          exact ⟨_, rfl, .inr ⟨by simp, hdone ▸ .all (hdone ▸ hs)⟩⟩
      · next hretry =>
        exact ⟨_, rfl, .inr ⟨by simp, .failed (List.mem_cons_self ..) (by simpa using hretry) hs⟩⟩
    | got n =>
      obtain ⟨r, s', hcall, hle, hp, hend⟩ := h.step (n := n) hsum hs
      dsimp only
      rw [hcall, ok_bind]
      dsimp only
      split
      · next hr =>
        subst hr
        rcases Nat.eq_zero_or_pos todo with hzero | hpos
        · have hdone : done = total := by omega
          exact ⟨_, rfl, .inr ⟨by simp, hdone ▸ .all (hdone ▸ hp)⟩⟩
        · exact ⟨_, rfl, .inr ⟨by simp,
            .short (List.mem_cons_self ..) (by omega) hp (hend rfl hpos)⟩⟩
      · next hr =>
        split
        · obtain ⟨out, hrun, hcase⟩ := ih (show todo - r + (done + r) = total by omega) hp
          refine ⟨out, hrun, ?_⟩
          rcases hcase with ⟨rfl, hfine, hcount⟩ | ⟨hne, hends⟩
          · refine .inl ⟨rfl, fun a ha => ?_, ?_⟩
            · rcases List.mem_cons.mp ha with rfl | ha
              · exact .inr ⟨n, rfl⟩
              · exact hfine a ha
            · rw [List.filter_cons_of_pos (by rfl), List.length_cons]
              rcases hcount with rfl | hcount
              · exact .inr (by rw [List.filter_nil, List.length_nil]; omega)
              · exact .inr (by omega)
          · exact .inr ⟨hne, hlift hends hne⟩
        · next hzero =>
          have hdone : done + r = total := by omega
          have hall : Ends P E total (Answer.got n :: answers) (some (((total : Nat) : Int), s')) :=
            .all (hdone ▸ hp)
          refine ⟨_, rfl, .inr ⟨by simp, ?_⟩⟩
          rw [← hdone] at hall ⊢
          exact_mod_cast hall

/-! ## The three functions -/

/-- An error that ends the loop. -/
def Refused (answers : List Answer) (ret : Int) : Prop :=
  ∃ errno pos, .failed errno pos ∈ answers ∧ (Answer.failed errno pos).retry = false ∧ ret = -errno

/-- The first `d` bytes are in the buffer. -/
def Filled (buf file : List UInt8) (d : Nat) (buf' : List UInt8) : Prop :=
  d ≤ file.length ∧ buf' = file.take d ++ buf.drop d

theorem filled_step {buf file buf' : List UInt8} {d todo : Nat} (h : Filled buf file d buf')
    (hbuf : todo + d + 1 = buf.length) (r : Nat) (hr : r ≤ min todo (file.drop d).length) :
    ∃ buf'', putRange buf' d ((file.drop d).take r) = some buf'' ∧
      Filled buf file (d + r) buf'' := by
  obtain ⟨hle, rfl⟩ := h
  rw [List.length_drop] at hr
  have hlen : (file.take d).length = d := by
    rw [List.length_take]
    omega
  have htake : ((file.drop d).take r).length = r := by
    rw [List.length_take, List.length_drop]
    omega
  have hput := putRange_append (file.take d) (buf.drop d) ((file.drop d).take r)
    (by rw [htake, List.length_drop]; omega)
  rw [hlen, htake] at hput
  refine ⟨_, hput, by omega, ?_⟩
  rw [List.drop_drop, List.take_add, List.append_assoc]

theorem sysRead_steps {buf : List UInt8} (hbuf : buf ≠ []) (file : List UInt8) :
    Steps sysRead (fun d s => Filled buf file d s.1 ∧ s.2 = file.drop d)
      (fun _ d => d = file.length) (buf.length - 1) := by
  refine ⟨fun {n todo done s} hsum hs => ?_⟩
  obtain ⟨hfilled, hrest⟩ := hs
  have hpos := List.length_pos_iff.mpr hbuf
  obtain ⟨buf', hput, hfilled'⟩ := filled_step hfilled (show todo + done + 1 = buf.length by omega)
    (min (n + 1) (min todo (file.drop done).length)) (Nat.min_le_right ..)
  refine ⟨_, (buf', _), ?_, ?_, ⟨hfilled', List.drop_drop⟩, ?_⟩
  · unfold sysRead
    rw [hrest]
    dsimp only
    rw [hput, inBlock_some, ok_bind]
  · omega
  · intro hzero htodo
    have hle := hfilled.1
    rw [List.length_drop] at hzero
    omega

theorem sysPread_steps {buf : List UInt8} (hbuf : buf ≠ []) (file : List UInt8) (off : Nat) :
    Steps (sysPread file off) (Filled buf (file.drop off)) (fun _ d => d = (file.drop off).length)
      (buf.length - 1) := by
  refine ⟨fun {n todo done s} hsum hs => ?_⟩
  have hpos := List.length_pos_iff.mpr hbuf
  obtain ⟨buf', hput, hfilled⟩ := filled_step hs (show todo + done + 1 = buf.length by omega)
    (min (n + 1) (min todo ((file.drop off).drop done).length)) (Nat.min_le_right ..)
  refine ⟨_, _, ?_, ?_, hfilled, ?_⟩
  · unfold sysPread
    rw [← List.drop_drop]
    dsimp only
    rw [hput, inBlock_some, ok_bind]
  · omega
  · intro hzero htodo
    have hle := hs.1
    rw [List.length_drop] at hzero
    omega

theorem sysWrite_steps (buf : List UInt8) :
    Steps (sysWrite buf) (fun d out => out = buf.take d) (fun n _ => n = 0) buf.length := by
  refine ⟨fun {n todo done s} hsum hs => ?_⟩
  subst hs
  have hget : getRange buf done (min n todo) = some ((buf.drop done).take (min n todo)) := by
    unfold getRange
    exact if_pos (by omega)
  refine ⟨min n todo, _, ?_, by omega, (List.take_add ..).symm, fun hzero htodo => by omega⟩
  unfold sysWrite
  dsimp only
  rw [hget, inBlock_some, ok_bind]

/-- A text in a buffer, with its NUL. -/
def textIn (text buf : List UInt8) : List UInt8 := text ++ 0 :: buf.drop (text.length + 1)

theorem terminate_filled {buf file buf' : List UInt8} {d : Nat} (h : Filled buf file d buf')
    (hd : d < buf.length) : terminate (d : Int) buf' = .ok (textIn (file.take d) buf) := by
  obtain ⟨hle, rfl⟩ := h
  have hlen : (file.take d).length = d := by
    rw [List.length_take]
    omega
  have hput := putRange_append (file.take d) (buf.drop d) [0] (by
    rw [List.length_drop]
    show 1 ≤ _
    omega)
  unfold terminate textIn
  rw [if_neg (by omega), Int.toNat_natCast, hlen]
  rw [hlen] at hput
  rw [hput, inBlock_some, List.length_singleton, List.drop_drop]
  rfl

/-- What a read is for: the text that fits, or an error; or the system does not answer. -/
def Reads (answers : List Answer) (total : Nat) (text buf : List UInt8) :
    Option (Int × List UInt8) → Prop
  | none => Waits total answers
  | some (ret, buf') => Refused answers ret ∨ (ret = text.length ∧ buf' = textIn text buf)

/-- The end of a read: the buffer has been filled as far as there is text. -/
theorem reads_of_ends (answers : List Answer) {buf file buf' : List UInt8} {d : Nat}
    (hbuf : buf ≠ []) (h : Filled buf file d buf')
    (hd : d = buf.length - 1 ∨ d = file.length ∧ d ≤ buf.length - 1) :
    ∃ buf'', terminate (d : Int) buf' = .ok buf'' ∧
      Reads answers (buf.length - 1) (file.take (buf.length - 1)) buf (some (d, buf'')) := by
  have hpos := List.length_pos_iff.mpr hbuf
  have hle := h.1
  have htext : file.take (buf.length - 1) = file.take d := by
    rcases hd with rfl | ⟨rfl, hle'⟩
    · rfl
    · rw [List.take_of_length_le hle', List.take_length]
  refine ⟨_, terminate_filled h (by omega), .inr ⟨?_, ?_⟩⟩
  · rw [htext, List.length_take, Nat.min_eq_left hle]
  · rw [htext]

theorem readStrSafe_reads (answers : List Answer) {buf : List UInt8} (hbuf : buf ≠ [])
    (file : List UInt8) :
    ∃ out, readStrSafe answers buf file = .ok out ∧
      Reads answers (buf.length - 1) (file.take (buf.length - 1)) buf
        (out.map (fun p => (p.1, p.2.1))) ∧
      ∀ ret buf' rest, out = some (ret, (buf', rest)) → 0 ≤ ret → rest = file.drop ret.toNat := by
  obtain ⟨out, hrun, hcase⟩ := safeLoop_ends (sysRead_steps hbuf file) answers
    (Nat.add_zero (buf.length - 1)) (s := (buf, file)) ⟨⟨Nat.zero_le _, rfl⟩, rfl⟩
  unfold readStrSafe
  rw [hrun, ok_bind]
  have hdone : ∀ {d : Nat} {s : List UInt8 × List UInt8}, Filled buf file d s.1 →
      s.2 = file.drop d → (d = buf.length - 1 ∨ d = file.length ∧ d ≤ buf.length - 1) →
      ∃ out, (do
          let buf ← terminate (d : Int) s.1
          Except.ok (some ((d : Int), (buf, s.2)))) = .ok out ∧
        Reads answers (buf.length - 1) (file.take (buf.length - 1)) buf
          (out.map (fun p => (p.1, p.2.1))) ∧
        ∀ ret buf' rest, out = some (ret, (buf', rest)) → 0 ≤ ret →
          rest = file.drop ret.toNat := by
    intro d s hfilled hrest hd
    obtain ⟨buf'', hterm, hreads⟩ := reads_of_ends answers hbuf hfilled hd
    rw [hterm]
    refine ⟨_, rfl, hreads, fun ret buf' rest heq _ => ?_⟩
    obtain ⟨rfl, hstate⟩ := Prod.mk.inj (Option.some.inj heq)
    rw [← (Prod.mk.inj hstate).2]
    exact hrest
  rcases hcase with ⟨rfl, hwaits⟩ | ⟨hne, hends⟩
  · exact ⟨none, rfl, hwaits, fun _ _ _ h => absurd h (by simp)⟩
  · cases hends with
    | waits _ => exact absurd rfl hne
    | all hp => exact hdone hp.1 hp.2 (.inl rfl)
    | short _ hle hp hend => exact hdone hp.1 hp.2 (.inr ⟨hend, hle⟩)
    | @failed d errno pos s hmem hretry hp =>
      have hneg : -(errno : Int) < 0 := by omega
      refine ⟨some (-errno, s), ?_, .inl ⟨errno, pos, hmem, hretry, rfl⟩,
        fun ret buf' rest heq hpos => ?_⟩
      · unfold terminate
        dsimp only
        rw [if_pos hneg]
        rfl
      · obtain ⟨rfl, -⟩ := Prod.mk.inj (Option.some.inj heq)
        omega

theorem preadStrSafe_reads (answers : List Answer) {buf : List UInt8} (hbuf : buf ≠ [])
    (file : List UInt8) (off : Nat) :
    ∃ out, preadStrSafe answers buf file off = .ok out ∧
      Reads answers (buf.length - 1) ((file.drop off).take (buf.length - 1)) buf out := by
  obtain ⟨out, hrun, hcase⟩ := safeLoop_ends (sysPread_steps hbuf file off) answers
    (Nat.add_zero (buf.length - 1)) (s := buf) ⟨Nat.zero_le _, rfl⟩
  unfold preadStrSafe
  rw [hrun, ok_bind]
  have hdone : ∀ {d : Nat} {buf' : List UInt8}, Filled buf (file.drop off) d buf' →
      (d = buf.length - 1 ∨ d = (file.drop off).length ∧ d ≤ buf.length - 1) →
      ∃ out, (do
          let buf ← terminate (d : Int) buf'
          Except.ok (some ((d : Int), buf))) = .ok out ∧
        Reads answers (buf.length - 1) ((file.drop off).take (buf.length - 1)) buf out := by
    intro d buf' hfilled hd
    obtain ⟨buf'', hterm, hreads⟩ := reads_of_ends answers hbuf hfilled hd
    rw [hterm]
    exact ⟨_, rfl, hreads⟩
  rcases hcase with ⟨rfl, hwaits⟩ | ⟨hne, hends⟩
  · exact ⟨none, rfl, hwaits⟩
  · cases hends with
    | waits _ => exact absurd rfl hne
    | all hp => exact hdone hp (.inl rfl)
    | short _ hle hp hend => exact hdone hp (.inr ⟨hend, hle⟩)
    | @failed d errno pos buf' hmem hretry hp =>
      refine ⟨some (-errno, buf'), ?_, .inl ⟨errno, pos, hmem, hretry, rfl⟩⟩
      unfold terminate
      dsimp only
      rw [if_pos (by omega)]
      rfl

theorem writeStrSafe_writes (answers : List Answer) (buf : List UInt8) :
    ∃ out, writeStrSafe answers buf = .ok out ∧
      ((out = none ∧ Waits buf.length answers) ∨
        ∃ ret d, out = some (ret, buf.take d) ∧ (Refused answers ret ∨
          (ret = d ∧ (d = buf.length ∨ d ≤ buf.length ∧ .got 0 ∈ answers)))) := by
  obtain ⟨out, hrun, hcase⟩ := safeLoop_ends (sysWrite_steps buf) answers
    (Nat.add_zero buf.length) (s := []) rfl
  refine ⟨out, hrun, ?_⟩
  rcases hcase with ⟨rfl, hwaits⟩ | ⟨hne, hends⟩
  · exact .inl ⟨rfl, hwaits⟩
  · cases hends with
    | waits _ => exact absurd rfl hne
    | all hp => exact .inr ⟨_, _, by rw [hp], .inr ⟨rfl, .inl rfl⟩⟩
    | short hmem hle hp hend => exact .inr ⟨_, _, by rw [hp], .inr ⟨rfl, .inr ⟨hle, hend ▸ hmem⟩⟩⟩
    | @failed d errno pos out hmem hretry hp =>
      exact .inr ⟨_, d, by rw [hp], .inl ⟨errno, pos, hmem, hretry, rfl⟩⟩

/--
**Reading and writing.** Whatever the system answers to the calls, one after the other: a read
that succeeds has put the part of the file that fits into the buffer, and a NUL behind it, and a
write has handed on a first part of the bytes, which are all of them unless a call has taken
nothing. The only errors are those that the system gives, interruptions apart. After the first
answer it is only waited for as long as there have been fewer transfers than bytes, where
interruptions are not counted.
-/
theorem strSafe_transfers (answers : List Answer) {buf : List UInt8} (hbuf : buf ≠ [])
    (file : List UInt8) (off : Nat) :
    (∃ out, readStrSafe answers buf file = .ok out ∧
      Reads answers (buf.length - 1) (file.take (buf.length - 1)) buf
        (out.map (fun p => (p.1, p.2.1))) ∧
      ∀ ret buf' rest, out = some (ret, (buf', rest)) → 0 ≤ ret → rest = file.drop ret.toNat) ∧
    (∃ out, preadStrSafe answers buf file off = .ok out ∧
      Reads answers (buf.length - 1) ((file.drop off).take (buf.length - 1)) buf out) ∧
    (∃ out, writeStrSafe answers buf = .ok out ∧
      ((out = none ∧ Waits buf.length answers) ∨
        ∃ ret d, out = some (ret, buf.take d) ∧ (Refused answers ret ∨
          (ret = d ∧ (d = buf.length ∨ d ≤ buf.length ∧ .got 0 ∈ answers))))) :=
  ⟨readStrSafe_reads answers hbuf file, preadStrSafe_reads answers hbuf file off,
    writeStrSafe_writes answers buf⟩

/-- A byte, an interruption, and the rest. -/
def threeAnswers : List Answer := [.got 0, .failed 4 (by decide), .got 9, .got 9]

/-- A short file arrives, however it is divided. -/
theorem strSafe_transfers_interrupted : ∃ out,
    readStrSafe threeAnswers (List.replicate 8 7) (cstr "live\n") = .ok (some out) ∧
    out.1 = 5 ∧ out.2.1 = cstr "live\n" ++ [0, 7, 7] ∧ out.2.2 = [] := by
  obtain ⟨⟨out, hrun, hreads, hrest⟩, -, -⟩ := strSafe_transfers threeAnswers
    (show List.replicate 8 7 ≠ [] by decide) (cstr "live\n") 0
  cases out with
  | none =>
    have hret : (readStrSafe threeAnswers (List.replicate 8 7) (cstr "live\n")).map Option.isSome
        = .ok true := by decide +kernel
    rw [hrun] at hret
    exact absurd (Except.ok.inj hret) (by decide)
  | some out =>
    obtain ⟨ret, buf, rest⟩ := out
    rcases hreads with ⟨errno, pos, hmem, hretry, -⟩ | ⟨hlen, hbuf⟩
    · have hall : ∀ a ∈ threeAnswers, a.retry = true ∨ ∃ n, a = .got n := by
        simp [threeAnswers, Answer.retry, EINTR]
      rcases hall _ hmem with htrue | ⟨n, hn⟩
      · exact absurd (hretry.symm.trans htrue) (by decide)
      · exact absurd hn (by simp)
    · obtain rfl : ret = 5 := hlen.trans (by decide)
      exact ⟨_, hrun, rfl, hbuf, hrest 5 buf rest rfl (by decide)⟩

end Kmod.ReadSafe
