import Cs238p.P4.KvdbMap
import Cs238p.P4.LogfsCalls

set_option relaxedAutoImplicit false
set_option autoImplicit false

/-!
# The key/value store over the concurrent log

`kvraw.c` and `kvdb.c` once more, as programs that call `logfs_append`, `logfs_read` and
`logfs_close`, with what they keep in memory only. On the ideal log they are the functions of
`Cs238p.P4.Kvraw` and `Cs238p.P4.Kvdb`; so a session of the store beside the worker of the log
answers like the abstract store.

## Main definitions

* `OverLog.Kvdb` — `struct kvdb` and `struct kvraw`, without the log.
* `OverLog.readMeta`, `kvrawLookup`, `kvrawAppend`, `chainLookup`, `mutate`, `kvdbOpen`, `kvdbPut`,
  `kvdbRemove`, `kvdbLookup`, `exec` — as in the source.
* `OverLog.session` — a store is opened, operations are run on it, and it is closed.

## Main results

* `OverLog.wp_chainLookup`, `OverLog.wp_mutate`, `OverLog.wp_exec` — on the ideal log the programs
  are the functions of the ideal store, and they read inside the log.
* `OverLog.session_total` — every session whose lookups spare the buffers ends in every
  interleaving, with the answers of the abstract store and the log of the ideal store on the device.

## Implementation notes

The results are those of the ideal store; an operation that returns does so with the new contents of
memory.
-/

namespace Cs238p.P4.OverLog

open CallProgram History Logfs Transition

/-- A program that calls the log. -/
abbrev LogProgram (α : Type) := Program Logfs.Call Answer α

/-- A program goes on if the one before it has not stopped. -/
def andThen {α β : Type} (p : LogProgram (Except Stop α)) (f : α → LogProgram (Except Stop β)) :
    LogProgram (Except Stop β) :=
  p.bind fun
    | .error stop => .ret (.error stop)
    | .ok a => f a

/-! ## Records -/

/-- `read_meta`, for a `kvraw` of the given size. -/
def readMeta (size off : ℕ) : LogProgram (Option Meta) :=
  if u64 (off + metaLen) > size then .ret none
  else
    .call (.read off metaLen) fun o =>
      if o.1 ≠ 0 then .ret none
      else
        let m := Meta.decode o.2
        if m.mark ≠ kvMark ∨ u64 (off + metaLen + m.keyLen + m.valLen) > size then .ret none
        else .ret (some m)

/-- `kvraw_lookup`. -/
def kvrawLookup (size : ℕ) (key : Option (List UInt8)) (keyLen : ℕ) (val : Option (List UInt8))
    (valLen : ℕ) (off : ℕ) : LogProgram (Except Stop (Option Found)) :=
  if (keyLen ≠ 0 ∧ key = none) ∨ (valLen ≠ 0 ∧ val = none) ∨ off = 0 then .ret (.error .assertion)
  else
    (readMeta size off).bind fun
      | none => .ret (.ok none)
      | some m =>
        let keyLen_ := min m.keyLen keyLen
        let valLen_ := min m.valLen valLen
        .call (.read (u64 (off + metaLen)) keyLen_) fun o =>
          if o.1 ≠ 0 then .ret (.ok none)
          else
            .call (.read (u64 (off + metaLen + m.keyLen)) valLen_) fun o' =>
              if o'.1 ≠ 0 then .ret (.ok none)
              else .ret (.ok (some ⟨copyTo key o.2, m.keyLen, copyTo val o'.2, m.valLen, m.off⟩))

/-- `kvraw_append`. It returns the new size and the record's offset. -/
def kvrawAppend (size : ℕ) (key val : List UInt8) (off : ℕ) :
    LogProgram (Except Stop (ℕ × Option ℕ)) :=
  if key.length = 0 ∨ key.length > 0xffff ∨ val.length > 0xffffffff then .ret (.error .assertion)
  else
    let m : Meta := ⟨kvMark, off, key.length % 2 ^ 16, val.length % 2 ^ 32⟩
    .call (.append m.encode) fun o =>
      if o.1 ≠ 0 then .ret (.ok (size, none))
      else
        .call (.append (key.take m.keyLen)) fun o' =>
          if o'.1 ≠ 0 then .ret (.ok (size, none))
          else
            .call (.append (val.take m.valLen)) fun o'' =>
              if o''.1 ≠ 0 then .ret (.ok (size, none))
              else .ret (.ok (u64 (size + (metaLen + m.keyLen + m.valLen)), some size))

/-! ## The store -/

/-- `struct kvdb` with the size of its `struct kvraw`, without the log. -/
structure Kvdb where
  size : ℕ
  waste : ℕ
  kvrawSize : ℕ
  index : Index

/-- `chain_lookup`. -/
def chainLookup (size : ℕ) (key : List UInt8) (valLen : ℕ) :
    ℕ → Option (List UInt8) → ℕ → LogProgram (Except Stop (Option ChainResult))
  | 0, _, _ => .ret (.error .diverges)
  | fuel + 1, val, off =>
    if off = 0 then .ret (.ok (some ⟨val, valLen, 0⟩))
    else
      andThen
        (kvrawLookup size (some (List.replicate 256 0)) (min key.length 256) val valLen off) fun
        | none => .ret (.ok none)
        | some f =>
          if f.keyLen ≠ key.length ∨ memDiffers f.key key (min key.length 8) then
            chainLookup size key valLen fuel f.val f.off
          else
            let again :=
              if f.keyLen > 8 then
                kvrawLookup size (some (List.replicate f.keyLen 0)) f.keyLen f.val 0 off
              else .ret (.ok (some f))
            andThen again fun
              | none => .ret (.ok none)
              | some g =>
                if memDiffers g.key key key.length then
                  chainLookup size key valLen fuel g.val g.off
                else .ret (.ok (some ⟨g.val, g.valLen, off⟩))

variable (hash : List UInt8 → UInt64)

/-- Append a record behind the reference `ref`, with the bookkeeping `account` of the mode. -/
def mutateAppend (kvdb : Kvdb) (key val : List UInt8) (ref : ℕ) (account : Kvdb → Kvdb)
    (reply : Reply) : LogProgram (Except Stop (Reply × Kvdb)) :=
  andThen (kvrawAppend kvdb.kvrawSize key val (kvdb.index.maps ref).off) fun
    | (size, none) => .ret (.ok ({ reply with code := -1 }, { kvdb with kvrawSize := size }))
    | (size, some off) =>
      .ret (.ok (reply,
        account { kvdb with kvrawSize := size, index := kvdb.index.setOff ref off }))

/-- `mutate`. -/
def mutate (kvdb : Kvdb) (key : List UInt8) (val : Option (List UInt8)) (valLen : Option ℕ)
    (mode : Mode) : LogProgram (Except Stop (Reply × Kvdb)) :=
  match indexUpdate hash kvdb.index key with
  | .error stop => .ret (.error stop)
  | .ok (index, ref) =>
    let kvdb := { kvdb with index := index }
    let off := (index.maps ref).off
    let val_ := if mode = .remove ∧ valLen ≠ none then val else none
    let valLen_ := if mode = .remove then valLen.getD 0 else 0
    andThen (chainLookup kvdb.kvrawSize key valLen_ (kvdb.kvrawSize + 1) val_ off) fun
      | none => .ret (.ok (⟨-1, val, valLen⟩, kvdb))
      | some c =>
        let newVal := (val.getD []).take (valLen.getD 0)
        match mode with
        | .remove =>
          let val' := if valLen ≠ none then c.val else val
          if c.off = 0 ∨ c.valLen = 0 then .ret (.ok (⟨1, val', valLen⟩, kvdb))
          else
            mutateAppend kvdb key [] ref
              (fun kvdb => { kvdb with
                size := u64 (kvdb.size + 2 ^ 64 - 1), waste := u64 (kvdb.waste + 1) })
              ⟨0, val', valLen.map fun _ => c.valLen⟩
        | .insert =>
          if c.off ≠ 0 ∧ c.valLen ≠ 0 then .ret (.ok (⟨1, val, valLen⟩, kvdb))
          else
            mutateAppend kvdb key newVal ref
              (fun kvdb => { kvdb with size := u64 (kvdb.size + 1) }) ⟨0, val, valLen⟩
        | .update =>
          let kvdb :=
            if c.off = 0 ∨ c.valLen = 0 then { kvdb with size := u64 (kvdb.size + 1) }
            else { kvdb with waste := u64 (kvdb.waste + 1) }
          mutateAppend kvdb key newVal ref id ⟨0, val, valLen⟩
        | .replace =>
          if c.off = 0 ∨ c.valLen = 0 then .ret (.ok (⟨1, val, valLen⟩, kvdb))
          else
            mutateAppend kvdb key newVal ref
              (fun kvdb => { kvdb with waste := u64 (kvdb.waste + 1) }) ⟨0, val, valLen⟩

/-- `kvdb_remove`. -/
def kvdbRemove (kvdb : Kvdb) (key : List UInt8) (val : Option (List UInt8)) (valLen : Option ℕ) :
    LogProgram (Except Stop (Reply × Kvdb)) :=
  if key.length = 0 ∨ key.length > kvdbMaxKeyLen then .ret (.error .assertion)
  else if ¬ (valLen = none ∨ valLen.getD 0 ≠ 0 ∨ val ≠ none) then .ret (.error .assertion)
  else mutate hash kvdb key val valLen .remove

/-- The common form of `kvdb_insert`, `kvdb_update` and `kvdb_replace`. -/
def kvdbPut (mode : Mode) (kvdb : Kvdb) (key val : List UInt8) :
    LogProgram (Except Stop (Reply × Kvdb)) :=
  if key.length = 0 ∨ key.length > kvdbMaxKeyLen then .ret (.error .assertion)
  else if val.length = 0 ∨ val.length > kvdbMaxValLen then .ret (.error .assertion)
  else mutate hash kvdb key (some val) (some val.length) mode

/-- `kvdb_lookup`. -/
def kvdbLookup (kvdb : Kvdb) (key : List UInt8) (val : Option (List UInt8)) (valLen : Option ℕ) :
    LogProgram (Except Stop Reply) :=
  if key.length = 0 ∨ key.length > kvdbMaxKeyLen then .ret (.error .assertion)
  else if ¬ (valLen = none ∨ valLen.getD 0 = 0 ∨ val ≠ none) then .ret (.error .assertion)
  else
    match indexLookup hash kvdb.index key with
    | .error stop => .ret (.error stop)
    | .ok ref =>
      let off := kvdb.index.deref ref
      if off = 0 then .ret (.ok ⟨1, val, valLen⟩)
      else
        let val_ := if valLen ≠ none then val else none
        andThen (chainLookup kvdb.kvrawSize key (valLen.getD 0) (kvdb.kvrawSize + 1) val_ off) fun
          | none => .ret (.ok ⟨-1, val, valLen⟩)
          | some c =>
            let val' := if valLen ≠ none then c.val else val
            if c.off = 0 ∨ c.valLen = 0 then .ret (.ok ⟨1, val', valLen⟩)
            else .ret (.ok ⟨0, val', valLen.map fun _ => c.valLen⟩)

/-- `kvdb_open`; `off` is the uninitialised variable of `kvraw_open`. The result is `none` where the
source returns a null pointer. -/
def kvdbOpen (off : ℕ) : LogProgram (Except Stop (Option Kvdb)) :=
  andThen (kvrawAppend 0 [0] [0] off) fun
    | (_, none) => .call .close fun _ => .ret (.ok none)
    | (size, some _) => .ret (.ok (some ⟨0, 0, size, indexOpen⟩))

/-- An operation on the store. -/
def exec (kvdb : Kvdb) : Op → LogProgram (Except Stop (Reply × Kvdb))
  | .insert key val => kvdbPut hash .insert kvdb key val
  | .update key val => kvdbPut hash .update kvdb key val
  | .replace key val => kvdbPut hash .replace kvdb key val
  | .remove key buf => kvdbRemove hash kvdb key buf (buf.map List.length)
  | .lookup key buf =>
    andThen (kvdbLookup hash kvdb key buf (buf.map List.length)) fun r => .ret (.ok (r, kvdb))

/-- Operations one after another, with their answers. -/
def execAll : List Op → Kvdb → LogProgram (Except Stop (List Reply))
  | [], _ => .ret (.ok [])
  | op :: ops, kvdb =>
    andThen (exec hash kvdb op) fun res =>
      andThen (execAll ops res.2) fun replies => .ret (.ok (res.1 :: replies))

/-- A session: the store is opened, the operations are run, and `kvdb_close` closes the log. The
result is `none` if the store could not be opened. -/
def session (off : ℕ) (ops : List Op) : LogProgram (Except Stop (Option (List Reply))) :=
  andThen (kvdbOpen off) fun
    | none => .ret (.ok none)
    | some kvdb =>
      andThen (execAll hash ops kvdb) fun replies => .call .close fun _ => .ret (.ok (some replies))

/-! ## On the ideal log -/

/-- What the store keeps in memory. -/
def forget (kvdb : P4.Kvdb) : Kvdb := ⟨kvdb.size, kvdb.waste, kvdb.kvraw.size, kvdb.index⟩

/-- A program ends with a result and with the bytes of an open log. -/
def Returns {α : Type} (r : α) (log : List UInt8) (a : α) (t : Ideal) : Prop :=
  a = r ∧ t = ⟨log, true⟩

section Rules

variable {α β : Type} {p : LogProgram (Except Stop α)} {f : α → LogProgram (Except Stop β)}
  {Q : Except Stop β → Ideal → Prop} {t : Ideal} {log : List UInt8}

lemma wp_andThen_ok {a : α} (hp : p.wp ideal (Returns (.ok a) log) t)
    (hf : (f a).wp ideal Q ⟨log, true⟩) : (andThen p f).wp ideal Q t := by
  refine Program.wp_bind.mpr (Program.wp_mono hp ?_)
  rintro _ _ ⟨rfl, rfl⟩
  exact hf

lemma wp_andThen_error {stop : Stop} (hp : p.wp ideal (Returns (.error stop) log) t)
    (hQ : Q (.error stop) ⟨log, true⟩) : (andThen p f).wp ideal Q t := by
  refine Program.wp_bind.mpr (Program.wp_mono hp ?_)
  rintro _ _ ⟨rfl, rfl⟩
  exact hQ

/-- A read inside an open log returns its bytes. -/
lemma wp_read {γ : Type} {k : Answer → LogProgram γ} {Q : γ → Ideal → Prop} {off len : ℕ}
    (hlen : off + len ≤ log.length)
    (hk : (k (0, logfsRead log off len)).wp ideal Q ⟨log, true⟩) :
    (Program.call (.read off len) k).wp ideal Q ⟨log, true⟩ := ⟨⟨rfl, hlen⟩, hk⟩

/-- An append to an open log. -/
lemma wp_append {γ : Type} {k : Answer → LogProgram γ} {Q : γ → Ideal → Prop} {buf : List UInt8}
    (hk : (k (0, [])).wp ideal Q ⟨log ++ buf, true⟩) :
    (Program.call (.append buf) k).wp ideal Q ⟨log, true⟩ := ⟨⟨rfl, trivial⟩, hk⟩

end Rules

variable {hash} {kvraw : Kvraw} {r : Record} {off : ℕ}

/-- `read_meta` at a record. -/
lemma wp_readMeta (h : RecordAt kvraw off r) :
    (readMeta kvraw.size off).wp ideal (Returns (P4.readMeta kvraw off) kvraw.logfs)
      ⟨kvraw.logfs, true⟩ := by
  have hle := h.le_length
  rw [readMeta, P4.readMeta]
  split
  · exact ⟨rfl, rfl⟩
  · refine wp_read (by rw [metaLen]; omega) ?_
    simp only [ne_eq, not_true_eq_false, if_false]
    split <;> exact ⟨rfl, rfl⟩

/-- **`kvraw_lookup`** at a record reads inside the log. -/
lemma wp_kvrawLookup (hsized : kvraw.Sized) (h : RecordAt kvraw off r) (key : Option (List UInt8))
    (keyLen : ℕ) (val : Option (List UInt8)) (valLen : ℕ) :
    (kvrawLookup kvraw.size key keyLen val valLen off).wp ideal
      (Returns (P4.kvrawLookup kvraw key keyLen val valLen off) kvraw.logfs)
      ⟨kvraw.logfs, true⟩ := by
  have hle := h.le_length
  have hlt := hsized.2
  have hu₁ : u64 (off + metaLen) = off + 16 := Nat.mod_eq_of_lt (by rw [metaLen]; omega)
  have hu₂ : u64 (off + metaLen + r.key.length) = off + 16 + r.key.length :=
    Nat.mod_eq_of_lt (by rw [metaLen]; omega)
  rw [kvrawLookup, P4.kvrawLookup]
  split
  · exact ⟨rfl, rfl⟩
  · refine Program.wp_bind.mpr (Program.wp_mono (wp_readMeta h) ?_)
    rintro _ _ ⟨rfl, rfl⟩
    rw [readMeta_of_recordAt hsized h]
    simp only [Record.header, hu₁, hu₂]
    refine wp_read (by omega) ?_
    simp only [ne_eq, not_true_eq_false, if_false]
    exact wp_read (by omega) ⟨rfl, rfl⟩

/-- The link of a record that `kvraw_lookup` returns. -/
lemma off_of_kvrawLookup (hsized : kvraw.Sized) (h : RecordAt kvraw off r)
    {key : Option (List UInt8)} {keyLen : ℕ} {val : Option (List UInt8)} {valLen : ℕ} {f : Found}
    (hf : P4.kvrawLookup kvraw key keyLen val valLen off = .ok (some f)) : f.off = r.link := by
  rw [P4.kvrawLookup, readMeta_of_recordAt hsized h] at hf
  split at hf
  · simp at hf
  · obtain rfl := Option.some.inj (Except.ok.inj hf)
    rfl

/-- **`chain_lookup`** along a chain reads inside the log.

**Proof sketch.** Induction on the chain, like the lookup itself: both lookups of a round are at the
record, and the next round is at the record it links to. -/
theorem wp_chainLookup (hsized : kvraw.Sized) {chain : List (List UInt8 × List UInt8)}
    (h : ChainAt kvraw off chain) (key : List UInt8) (valLen fuel : ℕ)
    (val : Option (List UInt8)) :
    (chainLookup kvraw.size key valLen fuel val off).wp ideal
      (Returns (P4.chainLookup kvraw key valLen fuel val off) kvraw.logfs)
      ⟨kvraw.logfs, true⟩ := by
  induction fuel generalizing off chain val with
  | zero => exact ⟨rfl, rfl⟩
  | succ fuel ih =>
    rw [chainLookup, P4.chainLookup]
    cases chain with
    | nil =>
      obtain rfl : off = 0 := h
      exact ⟨rfl, rfl⟩
    | cons e chain =>
      obtain ⟨hoff, link, -, hrec, hchain⟩ := h
      rw [if_neg hoff, if_neg hoff]
      have hfirst := wp_kvrawLookup hsized hrec (some (List.replicate 256 0)) (min key.length 256)
        val valLen
      cases hf : P4.kvrawLookup kvraw (some (List.replicate 256 0)) (min key.length 256) val valLen
        off with
      | error stop =>
        rw [hf] at hfirst
        exact wp_andThen_error hfirst ⟨rfl, rfl⟩
      | ok res =>
        rw [hf] at hfirst
        refine wp_andThen_ok hfirst ?_
        cases res with
        | none => exact ⟨rfl, rfl⟩
        | some f =>
          have hlink := off_of_kvrawLookup hsized hrec hf
          simp only
          by_cases hskip : f.keyLen ≠ key.length ∨ memDiffers f.key key (min key.length 8)
          · rw [if_pos hskip, if_pos hskip, hlink]
            exact ih hchain f.val
          · rw [if_neg hskip, if_neg hskip]
            -- A match of the first bytes is followed by a second lookup if the key is longer.
            have hagain : Program.wp ideal
                (if f.keyLen > 8 then kvrawLookup kvraw.size (some (List.replicate f.keyLen 0))
                  f.keyLen f.val 0 off else .ret (.ok (some f)))
                (Returns (if f.keyLen > 8 then P4.kvrawLookup kvraw
                  (some (List.replicate f.keyLen 0)) f.keyLen f.val 0 off else .ok (some f))
                  kvraw.logfs) ⟨kvraw.logfs, true⟩ := by
              split
              · exact wp_kvrawLookup hsized hrec _ _ _ _
              · exact ⟨rfl, rfl⟩
            have hlink' : ∀ g, (if f.keyLen > 8 then P4.kvrawLookup kvraw
                (some (List.replicate f.keyLen 0)) f.keyLen f.val 0 off else .ok (some f)) =
                  .ok (some g) → g.off = link := by
              intro g hg
              split at hg
              · exact off_of_kvrawLookup hsized hrec hg
              · obtain rfl := Option.some.inj (Except.ok.inj hg)
                exact hlink
            generalize (if f.keyLen > 8 then P4.kvrawLookup kvraw
                (some (List.replicate f.keyLen 0)) f.keyLen f.val 0 off else .ok (some f)) = again
              at hagain hlink' ⊢
            cases again with
            | error stop => exact wp_andThen_error hagain ⟨rfl, rfl⟩
            | ok res =>
              refine wp_andThen_ok hagain ?_
              cases res with
              | none => exact ⟨rfl, rfl⟩
              | some g =>
                simp only
                by_cases hother : memDiffers g.key key key.length = true
                · rw [if_pos hother, if_pos hother, hlink' g rfl]
                  exact ih hchain g.val
                · rw [if_neg hother, if_neg hother]
                  exact ⟨rfl, rfl⟩

/-- A program of the store ends with the result of an operation on the ideal store, and with its
log. -/
def Agrees (res : Except Stop (Reply × P4.Kvdb)) (a : Except Stop (Reply × Kvdb)) (t : Ideal) :
    Prop :=
  a = res.map (fun q => (q.1, forget q.2)) ∧ ∀ q, res = .ok q → t = ⟨q.2.kvraw.logfs, true⟩

lemma agrees_ok {reply : Reply} {kvdb : P4.Kvdb} :
    Agrees (.ok (reply, kvdb)) (.ok (reply, forget kvdb)) ⟨kvdb.kvraw.logfs, true⟩ := by
  refine ⟨rfl, fun q hq => ?_⟩
  obtain rfl := Except.ok.inj hq
  rfl

lemma agrees_error {stop : Stop} {t : Ideal} : Agrees (.error stop) (.error stop) t :=
  ⟨rfl, fun _ hq => absurd hq (by simp)⟩

variable {kvdb : P4.Kvdb} {hist : List (List UInt8 × List UInt8)}

/-- `kvraw_append` of a record within the assertions. -/
lemma wp_kvrawAppend (kvraw : Kvraw) (key val : List UInt8) (off : ℕ) (hkey : key.length ≠ 0)
    (hkey' : key.length < 2 ^ 16) (hval : val.length < 2 ^ 32) :
    (kvrawAppend kvraw.size key val off).wp ideal
      (Returns (.ok (u64 (kvraw.size + (16 + key.length + val.length)), some kvraw.size))
        (kvraw.logfs ++ (Record.mk off key val).bytes)) ⟨kvraw.logfs, true⟩ := by
  have hk : key.length % 2 ^ 16 = key.length := Nat.mod_eq_of_lt hkey'
  have hv : val.length % 2 ^ 32 = val.length := Nat.mod_eq_of_lt hval
  rw [kvrawAppend, if_neg (by omega)]
  refine wp_append ?_
  simp only [ne_eq, not_true_eq_false, if_false, hk, hv, List.take_length]
  refine wp_append (wp_append ⟨rfl, ?_⟩)
  rw [Record.bytes, Record.header, List.append_assoc, List.append_assoc]

/-- **Appending a record** behind a reference. -/
lemma wp_mutateAppend (kvdb : P4.Kvdb) (key val : List UInt8) (ref : ℕ)
    {account : Kvdb → Kvdb} {account' : P4.Kvdb → P4.Kvdb} (reply : Reply)
    (haccount : ∀ d, forget (account' d) = account (forget d))
    (hkvraw : ∀ d, (account' d).kvraw = d.kvraw) :
    (mutateAppend (forget kvdb) key val ref account reply).wp ideal
      (Agrees (P4.mutateAppend none kvdb key val ref account' reply))
      ⟨kvdb.kvraw.logfs, true⟩ := by
  by_cases hassert : key.length = 0 ∨ key.length > 0xffff ∨ val.length > 0xffffffff
  · rw [mutateAppend, P4.mutateAppend, P4.kvrawAppend, if_pos hassert, kvrawAppend, if_pos hassert]
    exact agrees_error
  · have happend := wp_kvrawAppend kvdb.kvraw key val (kvdb.index.maps ref).off
      (by omega) (by omega) (by omega)
    rw [mutateAppend_eq kvdb ref account' reply (by omega) (by rw [kvdbMaxKeyLen]; omega)
      (by rw [kvdbMaxValLen]; omega)]
    refine wp_andThen_ok happend ⟨?_, fun q hq => ?_⟩
    · rw [Except.map, haccount]
      rfl
    · obtain rfl := Except.ok.inj hq
      rw [hkvraw]
      rfl

/-- **`mutate`** on a store that keeps a history. -/
theorem wp_mutate (h : Inv hash kvdb hist) (key : List UInt8) (val : Option (List UInt8))
    (valLen : Option ℕ) (mode : Mode) :
    (mutate hash (forget kvdb) key val valLen mode).wp ideal
      (Agrees (P4.mutate hash none kvdb key val valLen mode)) ⟨kvdb.kvraw.logfs, true⟩ := by
  rw [mutate, P4.mutate, show (forget kvdb).index = kvdb.index from rfl]
  cases hup : indexUpdate hash kvdb.index key with
  | error stop => exact agrees_error
  | ok res =>
    obtain ⟨index, ref⟩ := res
    obtain ⟨hinv, href⟩ := h.indexUpdate hup
    have hchain := hinv.chains _ hashKey_ne_zero (index.maps ref).off (.inl ⟨ref, by rw [← href]⟩)
    have hlookup := wp_chainLookup hinv.sized hchain key
      (if mode = .remove then valLen.getD 0 else 0) (kvdb.kvraw.size + 1)
      (if mode = .remove ∧ valLen ≠ none then val else none)
    simp only
    cases hc : P4.chainLookup kvdb.kvraw key (if mode = .remove then valLen.getD 0 else 0)
        (kvdb.kvraw.size + 1) (if mode = .remove ∧ valLen ≠ none then val else none)
        (index.maps ref).off with
    | error stop =>
      rw [hc] at hlookup
      exact wp_andThen_error hlookup agrees_error
    | ok res =>
      rw [hc] at hlookup
      refine wp_andThen_ok hlookup ?_
      cases res with
      | none => exact agrees_ok
      | some c =>
        cases mode with
        | remove =>
          simp only
          by_cases habsent : c.off = 0 ∨ c.valLen = 0
          · rw [if_pos habsent, if_pos habsent]
            exact agrees_ok
          · rw [if_neg habsent, if_neg habsent]
            exact wp_mutateAppend { kvdb with index := index } key [] ref _ (fun _ => rfl)
              fun _ => rfl
        | insert =>
          simp only
          by_cases hpresent : c.off ≠ 0 ∧ c.valLen ≠ 0
          · rw [if_pos hpresent, if_pos hpresent]
            exact agrees_ok
          · rw [if_neg hpresent, if_neg hpresent]
            exact wp_mutateAppend { kvdb with index := index } key _ ref _ (fun _ => rfl)
              fun _ => rfl
        | update =>
          simp only
          by_cases habsent : c.off = 0 ∨ c.valLen = 0
          · rw [if_pos habsent, if_pos habsent]
            exact wp_mutateAppend { kvdb with index := index, size := u64 (kvdb.size + 1) } key _
              ref _ (fun _ => rfl) fun _ => rfl
          · rw [if_neg habsent, if_neg habsent]
            exact wp_mutateAppend { kvdb with index := index, waste := u64 (kvdb.waste + 1) } key _
              ref _ (fun _ => rfl) fun _ => rfl
        | replace =>
          simp only
          by_cases habsent : c.off = 0 ∨ c.valLen = 0
          · rw [if_pos habsent, if_pos habsent]
            exact agrees_ok
          · rw [if_neg habsent, if_neg habsent]
            exact wp_mutateAppend { kvdb with index := index } key _ ref _ (fun _ => rfl)
              fun _ => rfl

/-- **`kvdb_lookup`** on a store that keeps a history. -/
lemma wp_kvdbLookup (h : Inv hash kvdb hist) (key : List UInt8) (val : Option (List UInt8))
    (valLen : Option ℕ) :
    (kvdbLookup hash (forget kvdb) key val valLen).wp ideal
      (Returns (P4.kvdbLookup hash kvdb key val valLen) kvdb.kvraw.logfs)
      ⟨kvdb.kvraw.logfs, true⟩ := by
  rw [kvdbLookup, P4.kvdbLookup, show (forget kvdb).index = kvdb.index from rfl]
  by_cases hkey : key.length = 0 ∨ key.length > kvdbMaxKeyLen
  · rw [if_pos hkey, if_pos hkey]
    exact ⟨rfl, rfl⟩
  rw [if_neg hkey, if_neg hkey]
  by_cases hassert : ¬ (valLen = none ∨ valLen.getD 0 = 0 ∨ val ≠ none)
  · rw [if_pos hassert, if_pos hassert]
    exact ⟨rfl, rfl⟩
  rw [if_neg hassert, if_neg hassert]
  have hkey₀ : key.length ≠ 0 := fun h0 => hkey (.inl h0)
  obtain ⟨ref, href, hholds⟩ := indexLookup_eq hash h.placed hkey₀
  rw [href]
  simp only
  generalize kvdb.index.deref ref = off at hholds ⊢
  by_cases hzero : off = 0
  · rw [if_pos hzero, if_pos hzero]
    exact ⟨rfl, rfl⟩
  rw [if_neg hzero, if_neg hzero]
  have hchain := h.chains _ hashKey_ne_zero off hholds
  have hlookup := wp_chainLookup h.sized hchain key (valLen.getD 0) (kvdb.kvraw.size + 1)
    (if valLen ≠ none then val else none)
  cases hc : P4.chainLookup kvdb.kvraw key (valLen.getD 0) (kvdb.kvraw.size + 1)
      (if valLen ≠ none then val else none) off with
  | error stop =>
    rw [hc] at hlookup
    exact wp_andThen_error hlookup ⟨rfl, rfl⟩
  | ok res =>
    rw [hc] at hlookup
    refine wp_andThen_ok hlookup ?_
    cases res with
    | none => exact ⟨rfl, rfl⟩
    | some c =>
      simp only
      by_cases habsent : c.off = 0 ∨ c.valLen = 0
      · rw [if_pos habsent, if_pos habsent]
        exact ⟨rfl, rfl⟩
      · rw [if_neg habsent, if_neg habsent]
        exact ⟨rfl, rfl⟩

/-- **An operation** on a store that keeps a history. -/
theorem wp_exec (h : Inv hash kvdb hist) (op : Op) :
    (exec hash (forget kvdb) op).wp ideal (Agrees (P4.exec hash kvdb op))
      ⟨kvdb.kvraw.logfs, true⟩ := by
  have hput (mode : Mode) (key : Key) (val : Val) :
      (kvdbPut hash mode (forget kvdb) key val).wp ideal
        (Agrees (P4.kvdbPut hash mode none kvdb key val)) ⟨kvdb.kvraw.logfs, true⟩ := by
    obtain ⟨hkey, hkey'⟩ := key.2
    obtain ⟨hv, hv'⟩ := val.2
    rw [kvdbPut, P4.kvdbPut, if_neg (by omega), if_neg (by omega), if_neg (by omega),
      if_neg (by omega)]
    exact wp_mutate h key.1 _ _ mode
  cases op with
  | insert key val => exact hput .insert key val
  | update key val => exact hput .update key val
  | replace key val => exact hput .replace key val
  | remove key buf =>
    show (kvdbRemove hash (forget kvdb) key buf (buf.map List.length)).wp ideal
      (Agrees (P4.kvdbRemove hash none kvdb key buf (buf.map List.length))) _
    rw [kvdbRemove, P4.kvdbRemove]
    by_cases hkey : key.1.length = 0 ∨ key.1.length > kvdbMaxKeyLen
    · rw [if_pos hkey, if_pos hkey]
      exact agrees_error
    · rw [if_neg hkey, if_neg hkey]
      split
      · exact agrees_error
      · exact wp_mutate h key.1 _ _ .remove
  | lookup key buf =>
    have hlookup := wp_kvdbLookup h key.1 buf (buf.map List.length)
    rw [exec, P4.exec]
    cases hres : P4.kvdbLookup hash kvdb key buf (buf.map List.length) with
    | error stop =>
      rw [hres] at hlookup
      exact wp_andThen_error hlookup agrees_error
    | ok reply =>
      rw [hres] at hlookup
      exact wp_andThen_ok hlookup agrees_ok

/-! ## Sessions -/

/-- The answers of a session are those of the abstract store. -/
def CorrectAnswers : Map → List Op → List Reply → Prop
  | _, [], replies => replies = []
  | m, op :: ops, replies =>
    ∃ reply replies', replies = reply :: replies' ∧ Correct m op reply ∧
      CorrectAnswers (specNext m op) ops replies'

/-- **`kvdb_open`** on an empty log. -/
lemma wp_kvdbOpen (off : ℕ) :
    (kvdbOpen off).wp ideal (Returns (.ok (some (forget (P4.kvdbOpen off))))
      (P4.kvdbOpen off).kvraw.logfs) ⟨[], true⟩ := by
  have happend := wp_kvrawAppend ⟨0, []⟩ [0] [0] off (by decide) (by decide) (by decide)
  have hopen : kvrawOpen off = ⟨18, (Record.mk off [0] [0]).bytes⟩ := by
    rw [kvrawOpen, kvrawAppend_eq _ _ (by decide) (by decide) (by decide)]
    rfl
  rw [List.nil_append] at happend
  refine wp_andThen_ok happend ?_
  rw [P4.kvdbOpen, hopen]
  exact ⟨rfl, rfl⟩

/-- **Operations one after another** answer like the abstract store.

**Proof sketch.** Induction on the operations: each of them is the one of the ideal store, which
returns the answer of the abstract store and refines its step. -/
lemma wp_execAll {ops : List Op} {m : Map} (h : Refines hash (kvdb, m))
    (hfits : Always (step hash) LogFits (kvdb, m) ops)
    (hslots : Always (step hash) (FindsSlot hash) (kvdb, m) ops)
    (hspared : Always (step hash) (Spared hash) (kvdb, m) ops) :
    (execAll hash ops (forget kvdb)).wp ideal
      (fun a t => ∃ replies kvdb' m', a = .ok replies ∧ CorrectAnswers m ops replies ∧
        run (step hash) (kvdb, m) ops = some (kvdb', m') ∧ t = ⟨kvdb'.kvraw.logfs, true⟩)
      ⟨kvdb.kvraw.logfs, true⟩ := by
  induction ops generalizing kvdb m with
  | nil => exact ⟨[], kvdb, m, rfl, rfl, rfl, rfl⟩
  | cons op ops ih =>
    obtain ⟨reply, kvdb₁, hres, hiff, hrefines⟩ := h.exec hfits.1 hslots.1
    have hcorrect := hiff.mpr hspared.1
    have hstep : step hash (kvdb, m) op = some (kvdb₁, specNext m op) := by
      rw [step, hres]
    obtain ⟨hist, hinv, -⟩ := id h
    have hexec := wp_exec hinv op
    rw [hres] at hexec
    have hexec' : (exec hash (forget kvdb) op).wp ideal
        (Returns (.ok (reply, forget kvdb₁)) kvdb₁.kvraw.logfs) ⟨kvdb.kvraw.logfs, true⟩ :=
      Program.wp_mono hexec fun a t hat => ⟨hat.1, hat.2 _ rfl⟩
    refine wp_andThen_ok hexec' (Program.wp_bind.mpr (Program.wp_mono
      (ih hrefines (hfits.2 _ hstep) (hslots.2 _ hstep) (hspared.2 _ hstep)) ?_))
    rintro _ _ ⟨replies, kvdb', m', rfl, hanswers, hrun, rfl⟩
    refine ⟨reply :: replies, kvdb', m', rfl, ⟨reply, replies, rfl, hcorrect, hanswers⟩, ?_, rfl⟩
    rw [run_cons hstep]
    exact hrun

/-- What a session leaves: the answers of the abstract store, and on the device the log of the ideal
store. -/
def SessionEnds (hash : List UInt8 → UInt64) (off : ℕ) (ops : List Op)
    (a : Except Stop (Option (List Reply))) (s : State) : Prop :=
  ∃ replies kvdb m, a = .ok (some replies) ∧ CorrectAnswers (fun _ => none) ops replies ∧
    run (step hash) (start off) ops = some (kvdb, m) ∧
    ∀ j (hj : j < kvdb.kvraw.logfs.length), s.logfs.device j = kvdb.kvraw.logfs[j]

/-- **Every session of the store over the concurrent log is correct**: if the log of the ideal store
does not overflow, its insertions into the index find slots and its lookups spare the buffers, then
no interleaving of the session with the worker is infinite, each ends or waits for space, and at its
end the operations have answered like the abstract store and the log of the ideal store is on the
device.

**Proof sketch.** On the ideal log the session is that of the ideal store, with all reads inside the
log, and the concurrent log implements the ideal one. -/
theorem session_total (hash : List UInt8 → UInt64) (off : ℕ) (ops : List Op)
    (hfits : Always (step hash) LogFits (start off) ops)
    (hslots : Always (step hash) (FindsSlot hash) (start off) ops)
    (hspared : Always (step hash) (Spared hash) (start off) ops) (B : ℕ) (hB : 0 < B)
    (device : ℤ → UInt8) :
    Ends server WaitsForSpace (SessionEnds hash off ops)
      ⟨.ready (session hash off ops), State.start B device⟩ := by
  have hsession : (session hash off ops).wp ideal (fun a t => ∃ replies kvdb m,
      a = .ok (some replies) ∧ CorrectAnswers (fun _ => none) ops replies ∧
        run (step hash) (start off) ops = some (kvdb, m) ∧ t = ⟨kvdb.kvraw.logfs, false⟩)
      ⟨[], true⟩ := by
    refine wp_andThen_ok (wp_kvdbOpen off) (Program.wp_bind.mpr (Program.wp_mono
      (wp_execAll ⟨[], inv_kvdbOpen off, rfl⟩ hfits hslots hspared) ?_))
    rintro _ _ ⟨replies, kvdb, m, rfl, hanswers, hrun, rfl⟩
    exact ⟨⟨rfl, trivial⟩, replies, kvdb, m, rfl, hanswers, hrun, rfl⟩
  refine wp_total (implements_ideal B) (terminates_server B) (responsive_server B)
    (idle_start hB device) hsession ?_
  rintro a s t hidle ⟨replies, kvdb, m, ha, hanswers, hrun, rfl⟩
  exact ⟨replies, kvdb, m, ha, hanswers, hrun, hidle.stored rfl⟩

/-- Where all operations return, their insertions find slots. -/
lemma always_findsSlot_of_run {s s' : P4.Kvdb × Map} {ops : List Op}
    (hrun : run (step hash) s ops = some s') : Always (step hash) (FindsSlot hash) s ops := by
  induction ops generalizing s with
  | nil => trivial
  | cons op ops ih =>
    obtain ⟨s₁, hstep, hrun⟩ := run_cons_eq_some.mp hrun
    refine ⟨?_, fun s₂ hs₂ => ?_⟩
    · rw [step] at hstep
      split at hstep
      · simp at hstep
      · next hres => exact findsSlot_of_exec hres
    · obtain rfl := Option.some.inj (hstep.symm.trans hs₂)
      exact ih hrun

/-- Two keys with one hash value, the first of which is looked up and removed again. -/
theorem session_total_collision :
    let ops : List Op := [.insert (numberedKey 0) oneByte, .update (numberedKey 1) oneByte,
      .lookup (numberedKey 0) (some [0, 0]), .remove (numberedKey 0) none]
    Ends server WaitsForSpace (SessionEnds numberHash 0 ops)
      ⟨.ready (session numberHash 0 ops), State.start 4 fun _ => 0⟩ := by
  intro ops
  have hfits : Always (step numberHash) LogFits (start 0) ops := by decide +kernel
  have hruns : (run (step numberHash) (start 0) ops).isSome = true := by decide +kernel
  obtain ⟨s, hrun⟩ := Option.isSome_iff_exists.mp hruns
  exact session_total numberHash 0 ops hfits (always_findsSlot_of_run hrun) (by decide +kernel) 4
    (by decide) _

end Cs238p.P4.OverLog
