import Mathlib.Data.Finmap
import Mathlib.Data.Nat.Bitwise
import Lionagi.Library.FlatArray
import Lionagi.LionCore.State

/-!
# Paged memory

The linear memory of a plugin keeps its bytes in pages of 4 KiB, and only touched pages exist. A range is
read and written page by page. The pages refine a flat array of bytes: a read gives what was written last,
and zero where nothing was written.
-/

namespace Lionagi.LionCore

open FlatArray

def pageBits : ℕ := 12

def pageSize : ℕ := 1 <<< pageBits

def pageOf (addr : MemAddr) : ℕ := addr >>> pageBits

def offsetInPage (addr : MemAddr) : ℕ := addr &&& (1 <<< pageBits - 1)

variable (addr : MemAddr)

theorem pageOf_eq : pageOf addr = addr / pageSize :=
  Nat.shiftRight_eq_div_pow addr pageBits

theorem offsetInPage_eq : offsetInPage addr = addr % pageSize :=
  Nat.and_two_pow_sub_one_eq_mod addr pageBits

theorem offsetInPage_lt : offsetInPage addr < pageSize := by
  rw [offsetInPage_eq]
  exact Nat.mod_lt _ (by decide)

/-- An address is its page and its offset. -/
theorem pageSize_mul_add : pageSize * pageOf addr + offsetInPage addr = addr := by
  rw [pageOf_eq, offsetInPage_eq]
  exact Nat.div_add_mod addr pageSize

/-- Addresses of one page are as far apart as their offsets. -/
theorem offsetInPage_add {addr a : ℕ} (h : pageOf a = pageOf addr) :
    offsetInPage a + addr = offsetInPage addr + a := by
  have haddr := pageSize_mul_add addr
  have ha := pageSize_mul_add a
  rw [h] at ha
  omega

/-! ## Pages -/

/-- A page has its full length. -/
structure Page where
  bytes : List UInt8
  length_eq : bytes.length = pageSize

namespace Page

def zero : Page := ⟨List.replicate pageSize 0, List.length_replicate⟩

/-- `page[addr]` at the offset of the address. -/
def get (page : Page) (addr : MemAddr) : UInt8 :=
  page.bytes.get ⟨offsetInPage addr, page.length_eq ▸ offsetInPage_lt addr⟩

/-- `page[off..off + data.len()].copy_from_slice(data)`. -/
def copySlice (page : Page) (off : ℕ) (data : List UInt8) (h : off + data.length ≤ pageSize) : Page where
  bytes := page.bytes.take off ++ data ++ page.bytes.drop (off + data.length)
  length_eq := by
    have := page.length_eq
    simp only [List.length_append, List.length_take, List.length_drop]
    omega

variable (page : Page)

theorem bytes_copySlice (off : ℕ) (data : List UInt8) (h : off + data.length ≤ pageSize) :
    (page.copySlice off data h).bytes = page.bytes.take off ++ (data ++ page.bytes.drop (off + data.length)) :=
  List.append_assoc _ _ _

/-- `page[off] = val` at the offset of the address. -/
def set (page : Page) (addr : MemAddr) (val : UInt8) : Page where
  bytes := page.bytes.set (offsetInPage addr) val
  length_eq := by rw [List.length_set, page.length_eq]

theorem some_get (addr : MemAddr) : some (page.get addr) = page.bytes[offsetInPage addr]? := by
  rw [List.getElem?_eq_getElem (page.length_eq ▸ offsetInPage_lt addr)]
  rfl

@[simp] theorem get_zero : zero.get addr = 0 := by
  simp [get, zero]

/-- On its page, a copied slice is what a flat array has after the run is written. -/
theorem get_copySlice {addr a : ℕ} (hpage : pageOf a = pageOf addr) (data : List UInt8)
    (h : offsetInPage addr + data.length ≤ pageSize) :
    (page.copySlice (offsetInPage addr) data h).get a =
      if addr ≤ a then data[a - addr]?.getD (page.get a) else page.get a := by
  apply Option.some.inj
  have hoffset := offsetInPage_add hpage
  have hlength := page.length_eq
  have htake : (page.bytes.take (offsetInPage addr)).length = offsetInPage addr := by
    rw [List.length_take]
    omega
  rw [some_get, bytes_copySlice]
  split_ifs with haddr
  · rw [List.getElem?_append_right (by omega), htake,
      show offsetInPage a - offsetInPage addr = a - addr by omega]
    by_cases hin : a - addr < data.length
    · rw [List.getElem?_append_left hin, List.getElem?_eq_getElem hin, Option.getD_some]
    · rw [List.getElem?_append_right (by omega), List.getElem?_drop, List.getElem?_eq_none (l := data) (by omega),
        Option.getD_none, some_get]
      congr 1
      omega
  · rw [List.getElem?_append_left (by omega), List.getElem?_take_of_lt (by omega), some_get]

theorem set_eq_copySlice (addr : MemAddr) (val : UInt8) :
    page.set addr val = page.copySlice (offsetInPage addr) [val] (offsetInPage_lt addr) := by
  have hlt : offsetInPage addr < page.bytes.length := page.length_eq ▸ offsetInPage_lt addr
  simp [set, copySlice, List.set_eq_take_append_cons_drop, hlt]

end Page

/-! ## The memory -/

/-- The sparse page storage. -/
abbrev Pages := Finmap fun _ : ℕ ↦ Page

namespace Pages

/-- A missing page reads as zeros. -/
def read (pages : Pages) (addr : MemAddr) : UInt8 :=
  match pages.lookup (pageOf addr) with
  | some page => page.get addr
  | none => 0

/-- `entry(pg).or_insert_with(..)`. -/
def pageOrZero (pages : Pages) (pg : ℕ) : Page := (pages.lookup pg).getD .zero

variable (pages : Pages)

theorem get_pageOrZero (addr : MemAddr) : (pages.pageOrZero (pageOf addr)).get addr = pages.read addr := by
  unfold pageOrZero read
  cases pages.lookup (pageOf addr) with
  | none => exact Page.get_zero addr
  | some page => rfl

def writeMut (pages : Pages) (addr : MemAddr) (val : UInt8) : Pages :=
  pages.insert (pageOf addr) ((pages.pageOrZero (pageOf addr)).set addr val)

theorem read_insert (pg : ℕ) (page : Page) (a : MemAddr) :
    (Pages.read (pages.insert pg page) a) = if pageOf a = pg then page.get a else pages.read a := by
  unfold read
  split_ifs with h
  · rw [h, Finmap.lookup_insert]
  · rw [Finmap.lookup_insert_of_ne _ h]

/-- A slice copied into a page writes the run at its address. -/
theorem read_insert_copySlice (pos : ℕ) (data : List UInt8) (h : offsetInPage pos + data.length ≤ pageSize) :
    Pages.read (pages.insert (pageOf pos)
      ((pages.pageOrZero (pageOf pos)).copySlice (offsetInPage pos) data h)) =
      overwrite pages.read pos data := by
  funext a
  rw [read_insert]
  by_cases hpage : pageOf a = pageOf pos
  · rw [if_pos hpage, Page.get_copySlice _ hpage, overwrite, ← hpage, get_pageOrZero]
  · rw [if_neg hpage]
    have hpos := pageSize_mul_add pos
    have ha := pageSize_mul_add a
    have hlt := offsetInPage_lt pos
    by_cases hbefore : a < pos
    · exact (overwrite_of_lt _ _ hbefore).symm
    · refine (overwrite_of_ge _ ?_).symm
      -- The address lies in a later page, behind the end of the run.
      have hpages : pageOf pos + 1 ≤ pageOf a := by
        have hle : pageOf pos ≤ pageOf a := by
          rw [pageOf_eq, pageOf_eq]
          exact Nat.div_le_div_right (Nat.le_of_not_lt hbefore)
        omega
      have hstart : pageSize * (pageOf pos + 1) ≤ pageSize * pageOf a := Nat.mul_le_mul_left _ hpages
      rw [Nat.mul_add, Nat.mul_one] at hstart
      omega

theorem read_writeMut (addr : ℕ) (val : UInt8) : (pages.writeMut addr val).read = overwrite pages.read addr [val] := by
  rw [writeMut, Page.set_eq_copySlice]
  exact read_insert_copySlice pages addr [val] _

/-- How much of a range of `len` bytes lies in the page of its first byte. -/
def chunkAt (pos len : ℕ) : ℕ := min (pageSize - offsetInPage pos) len

theorem chunkAt_le (pos len : ℕ) : offsetInPage pos + chunkAt pos len ≤ pageSize := by
  have := offsetInPage_lt pos
  have : chunkAt pos len ≤ pageSize - offsetInPage pos := Nat.min_le_left _ _
  omega

theorem chunkAt_le_len (pos len : ℕ) : chunkAt pos len ≤ len := Nat.min_le_right _ _

theorem chunkAt_pos (pos len : ℕ) (h : 0 < len) : 0 < chunkAt pos len :=
  Nat.lt_min.2 ⟨Nat.sub_pos_of_lt (offsetInPage_lt pos), h⟩

/-- The loop of `read_range`. The position never exceeds `stop`, so no addition wraps. -/
def readLoop (pages : Pages) (result : List UInt8) (pos stop : ℕ) : List UInt8 :=
  if pos < stop then
    let chunk := chunkAt pos (stop - pos)
    let slice := match pages.lookup (pageOf pos) with
      | some page => (page.bytes.drop (offsetInPage pos)).take chunk
      | none => List.replicate chunk 0
    readLoop pages (result ++ slice) (pos + chunk) stop
  else result
termination_by stop - pos
decreasing_by
  have := chunkAt_pos pos (stop - pos) (by omega)
  omega

/-- The loop of `write_range_mut`. -/
def writeLoop (pages : Pages) (pos srcOff : ℕ) (data : List UInt8) : Pages :=
  if srcOff < data.length then
    let chunk := chunkAt pos (data.length - srcOff)
    let page := pages.pageOrZero (pageOf pos)
    writeLoop (pages.insert (pageOf pos) (page.copySlice (offsetInPage pos) ((data.drop srcOff).take chunk)
      ((Nat.add_le_add_left (List.length_take_le _ _) _).trans (chunkAt_le _ _)))) (pos + chunk) (srcOff + chunk) data
  else pages
termination_by data.length - srcOff
decreasing_by
  have := chunkAt_pos pos (data.length - srcOff) (by omega)
  omega

/-- The slice that one round of the read loop takes. -/
theorem slice_eq_window {pos chunk : ℕ} (h : offsetInPage pos + chunk ≤ pageSize) :
    (match pages.lookup (pageOf pos) with
      | some page => (page.bytes.drop (offsetInPage pos)).take chunk
      | none => List.replicate chunk 0) = window pages.read pos chunk := by
  have hpage {i : ℕ} (hi : i < chunk) : pageOf (pos + i) = pageOf pos ∧
      offsetInPage (pos + i) = offsetInPage pos + i := by
    have hpos := pageSize_mul_add pos
    have hlt : offsetInPage pos + i < pageSize := by omega
    rw [pageOf_eq, offsetInPage_eq, ← hpos, Nat.add_assoc, Nat.mul_add_div (by decide), Nat.mul_add_mod,
      Nat.div_eq_of_lt hlt, Nat.mod_eq_of_lt hlt, hpos]
    exact ⟨rfl, rfl⟩
  apply List.ext_getElem?
  intro i
  by_cases hi : i < chunk
  · rw [window, List.getElem?_map, List.getElem?_range hi, Option.map_some, read, (hpage hi).1]
    cases pages.lookup (pageOf pos) with
    | none => exact List.getElem?_replicate_of_lt hi
    | some page => rw [List.getElem?_take_of_lt hi, List.getElem?_drop, Page.some_get, (hpage hi).2]
  · have hwindow : (window pages.read pos chunk)[i]? = none :=
      List.getElem?_eq_none ((length_window _ _ _).trans_le (Nat.le_of_not_lt hi))
    rw [hwindow, List.getElem?_eq_none]
    cases pages.lookup (pageOf pos) with
    | none => simpa using Nat.le_of_not_lt hi
    | some page => exact (List.length_take_le _ _).trans (Nat.le_of_not_lt hi)

/-- The read loop appends the window of what is left of the range. -/
theorem readLoop_eq (result : List UInt8) (pos stop : ℕ) :
    pages.readLoop result pos stop = result ++ window pages.read pos (stop - pos) := by
  fun_induction readLoop pages result pos stop with
  | case1 result pos hlt chunk slice ih =>
    have hslice : slice = window pages.read pos chunk := slice_eq_window pages (chunkAt_le pos _)
    have hle : chunk ≤ stop - pos := chunkAt_le_len pos _
    have hsplit : stop - pos = chunk + (stop - (pos + chunk)) := by omega
    rw [ih, hslice, hsplit, window_add, List.append_assoc]
  | case2 result pos hge =>
    rw [Nat.sub_eq_zero_of_le (Nat.le_of_not_lt hge), window_zero, List.append_nil]

/-- The write loop writes what is left of the data. -/
theorem read_writeLoop (pos srcOff : ℕ) (data : List UInt8) :
    (pages.writeLoop pos srcOff data).read = overwrite pages.read pos (data.drop srcOff) := by
  fun_induction writeLoop pages pos srcOff data with
  | case1 pages pos srcOff hlt chunk page ih =>
    have hle : chunk ≤ data.length - srcOff := chunkAt_le_len pos _
    have hlength : ((data.drop srcOff).take chunk).length = chunk := by
      rw [List.length_take, List.length_drop]
      omega
    rw [ih, read_insert_copySlice]
    calc
      _ = overwrite (overwrite pages.read pos ((data.drop srcOff).take chunk))
          (pos + ((data.drop srcOff).take chunk).length) ((data.drop srcOff).drop chunk) := by
        rw [hlength, List.drop_drop]
      _ = overwrite pages.read pos ((data.drop srcOff).take chunk ++ (data.drop srcOff).drop chunk) :=
        (overwrite_append _ _ _ _).symm
      _ = overwrite pages.read pos (data.drop srcOff) := by rw [List.take_append_drop]
  | case2 pages pos srcOff hge =>
    rw [List.drop_of_length_le (Nat.le_of_not_lt hge), overwrite_nil]

end Pages

/-- A memory of a plugin with its pages. -/
structure PagedMemory extends LinearMemory where
  pages : Pages
  bounds_lt : bounds < 2 ^ 64

namespace PagedMemory

def empty (size : Size) (h : size < 2 ^ 64) : PagedMemory := { bounds := size, pages := ∅, bounds_lt := h }

def read (memory : PagedMemory) (addr : MemAddr) : UInt8 := memory.pages.read addr

/-- Neither version looks at the bounds. -/
def writeMut (memory : PagedMemory) (addr : MemAddr) (val : UInt8) : PagedMemory :=
  { memory with pages := memory.pages.writeMut addr val }

def write (memory : PagedMemory) (addr : MemAddr) (val : UInt8) : PagedMemory := memory.writeMut addr val

/-- The most bytes that a vector can have; `usize` has 64 bits. -/
def isizeMax : ℕ := 2 ^ 63 - 1

/-- `none` is the panic of `Vec::with_capacity` on a capacity that no vector can have. -/
def readRange (memory : PagedMemory) (addr : MemAddr) (len : Size) : Option (Except MemoryError (List UInt8)) :=
  if !memory.addrInBounds addr len then some (.error (.outOfBounds addr len memory.bounds))
  else if isizeMax < len then none
  else some (.ok (memory.pages.readLoop [] addr (addr + len)))

def writeRangeMut (memory : PagedMemory) (addr : MemAddr) (data : List UInt8) : PagedMemory :=
  { memory with pages := memory.pages.writeLoop addr 0 data }

def writeRange (memory : PagedMemory) (addr : MemAddr) (data : List UInt8) : Except MemoryError PagedMemory :=
  if !memory.addrInBounds addr data.length then .error (.outOfBounds addr data.length memory.bounds)
  else .ok (memory.writeRangeMut addr data)

/-! ## Runs of writes -/

inductive WriteOp where
  | write (addr : MemAddr) (val : UInt8)
  | writeMut (addr : MemAddr) (val : UInt8)
  | writeRange (addr : MemAddr) (data : List UInt8)

/-- The address and the bytes of a write. -/
def WriteOp.written : WriteOp → ℕ × List UInt8
  | .write addr val => (addr, [val])
  | .writeMut addr val => (addr, [val])
  | .writeRange addr data => (addr, data)

def WriteOp.apply (memory : PagedMemory) : WriteOp → Except MemoryError PagedMemory
  | .write addr val => .ok (memory.write addr val)
  | .writeMut addr val => .ok (memory.writeMut addr val)
  | .writeRange addr data => memory.writeRange addr data

/-- A sequence of writes whose range writes all succeed. -/
inductive Run : PagedMemory → List WriteOp → PagedMemory → Prop where
  | nil (memory : PagedMemory) : Run memory [] memory
  | cons {memory next last : PagedMemory} {op : WriteOp} {ops : List WriteOp}
      (head : op.apply memory = .ok next) (tail : Run next ops last) : Run memory (op :: ops) last

section Facts

variable {memory : PagedMemory}
variable {len : Size}

theorem addrInBounds_iff {addr : MemAddr} : memory.addrInBounds addr len = true ↔ addr + len ≤ memory.bounds := by
  have hbounds := memory.bounds_lt
  unfold LinearMemory.addrInBounds checkedAdd
  split_ifs with hadd
  · exact decide_eq_true_iff
  · exact iff_of_false (by decide) fun hle ↦ hadd (Nat.lt_of_le_of_lt hle hbounds)

theorem readRange_of_le {addr : MemAddr} (h : addr + len ≤ memory.bounds) (hlen : len ≤ isizeMax) :
    memory.readRange addr len = some (.ok (window memory.read addr len)) := by
  rw [readRange, addrInBounds_iff.2 h, Pages.readLoop_eq, List.nil_append, Nat.add_sub_cancel_left,
    if_neg (by decide), if_neg (Nat.not_lt.2 hlen)]
  rfl

theorem readRange_of_lt {addr : MemAddr} (h : addr + len ≤ memory.bounds) (hlen : isizeMax < len) :
    memory.readRange addr len = none := by
  rw [readRange, addrInBounds_iff.2 h, if_neg (by decide), if_pos hlen]

theorem readRange_of_not_le {addr : MemAddr} (h : ¬ addr + len ≤ memory.bounds) :
    memory.readRange addr len = some (.error (.outOfBounds addr len memory.bounds)) := by
  rw [readRange, if_pos]
  rw [Bool.not_eq_true', ← Bool.not_eq_true, addrInBounds_iff]
  exact h

variable {data : List UInt8}

theorem writeRange_of_le {addr : MemAddr} (h : addr + data.length ≤ memory.bounds) :
    memory.writeRange addr data = .ok (memory.writeRangeMut addr data) := by
  rw [writeRange, addrInBounds_iff.2 h]
  rfl

theorem writeRange_of_not_le {addr : MemAddr} (h : ¬ addr + data.length ≤ memory.bounds) :
    memory.writeRange addr data = .error (.outOfBounds addr data.length memory.bounds) := by
  rw [writeRange, if_pos]
  rw [Bool.not_eq_true', ← Bool.not_eq_true, addrInBounds_iff]
  exact h

/-- A write that succeeds overwrites the flat array, and the bounds stay. -/
theorem read_apply {op : WriteOp} {next : PagedMemory} (h : op.apply memory = .ok next) :
    next.read = overwrite memory.read op.written.1 op.written.2 ∧ next.bounds = memory.bounds := by
  cases op with
  | write addr val =>
    cases h
    exact ⟨Pages.read_writeMut memory.pages addr val, rfl⟩
  | writeMut addr val =>
    cases h
    exact ⟨Pages.read_writeMut memory.pages addr val, rfl⟩
  | writeRange addr data =>
    by_cases hle : addr + data.length ≤ memory.bounds
    · rw [WriteOp.apply, writeRange_of_le hle] at h
      cases h
      exact ⟨Pages.read_writeLoop memory.pages addr 0 data, rfl⟩
    · rw [WriteOp.apply, writeRange_of_not_le hle] at h
      cases h

theorem Run.read_eq {ops : List WriteOp} {last : PagedMemory} (h : Run memory ops last) :
    last.read = (ops.map WriteOp.written).foldl (fun flat write ↦ overwrite flat write.1 write.2) memory.read ∧
      last.bounds = memory.bounds := by
  induction h with
  | nil memory => exact ⟨rfl, rfl⟩
  | cons head tail ih =>
    obtain ⟨hread, hbounds⟩ := read_apply head
    rw [ih.1, ih.2, hread, hbounds]
    exact ⟨rfl, rfl⟩

end Facts

/-! ## The flat array -/

/-- The memory reads like a flat array of the bytes `written`, zero elsewhere. -/
structure ReadsAs (memory : PagedMemory) (written : ℕ → Option UInt8) : Prop where
  read : ∀ addr, memory.read addr = (written addr).getD 0
  readRange : ∀ addr len bytes, memory.readRange addr len = some (.ok bytes) →
    bytes = window (fun a ↦ (written a).getD 0) addr len ∧ bytes.length = len

/-- Range operations succeed within the bounds; what a range write does not cover stays. -/
structure RangeLaw (memory : PagedMemory) (readable : Size → Prop) : Prop where
  readRange : ∀ addr len, (∃ bytes, memory.readRange addr len = some (.ok bytes)) ↔
    addr + len ≤ memory.bounds ∧ readable len
  writeRange : ∀ addr data, (∃ next, memory.writeRange addr data = .ok next) ↔
    addr + data.length ≤ memory.bounds
  frame : ∀ addr data next a, memory.writeRange addr data = .ok next →
    ¬ (addr ≤ a ∧ a < addr + data.length) → next.read a = memory.read a

theorem readsAs_of_read {memory : PagedMemory} {written : ℕ → Option UInt8}
    (hread : ∀ addr, memory.read addr = (written addr).getD 0) : ReadsAs memory written where
  read := hread
  readRange addr len bytes h := by
    have hflat : memory.read = fun a ↦ (written a).getD 0 := funext hread
    by_cases hle : addr + len ≤ memory.bounds
    · by_cases hlen : len ≤ isizeMax
      · rw [readRange_of_le hle hlen, hflat] at h
        cases h
        exact ⟨rfl, length_window _ _ _⟩
      · rw [readRange_of_lt hle (Nat.lt_of_not_le hlen)] at h
        cases h
    · rw [readRange_of_not_le hle] at h
      cases h

theorem rangeLaw (memory : PagedMemory) : RangeLaw memory (· ≤ isizeMax) where
  readRange addr len := by
    by_cases hle : addr + len ≤ memory.bounds
    · by_cases hlen : len ≤ isizeMax
      · exact iff_of_true ⟨_, readRange_of_le hle hlen⟩ ⟨hle, hlen⟩
      · rw [readRange_of_lt hle (Nat.lt_of_not_le hlen)]
        simp [hlen]
    · rw [readRange_of_not_le hle]
      simp [hle]
  writeRange addr data := by
    by_cases hle : addr + data.length ≤ memory.bounds
    · exact iff_of_true ⟨_, writeRange_of_le hle⟩ hle
    · rw [writeRange_of_not_le hle]
      simp [hle]
  frame addr data next a h hout := by
    have hread := (read_apply (show WriteOp.apply memory (.writeRange addr data) = .ok next from h)).1
    rw [hread]
    by_cases hbefore : a < addr
    · exact overwrite_of_lt _ _ hbefore
    · exact overwrite_of_ge _ (Nat.le_of_not_lt fun hlt ↦ hout ⟨Nat.le_of_not_lt hbefore, hlt⟩)

/-- Paged memory refines a flat byte array, for every run of writes on an empty memory. -/
theorem refines_flat {size : Size} (hsize : size < 2 ^ 64) {ops : List WriteOp} {memory : PagedMemory}
    (hrun : Run (empty size hsize) ops memory) :
    memory.bounds = size ∧ ReadsAs memory (lastWritten (ops.map WriteOp.written)) ∧
      RangeLaw memory (· ≤ isizeMax) := by
  obtain ⟨hread, hbounds⟩ := hrun.read_eq
  refine ⟨hbounds, readsAs_of_read fun addr ↦ ?_, rangeLaw memory⟩
  rw [hread, foldl_overwrite]
  rfl

/-- Two bytes over the border of the first two pages. -/
theorem refines_flat_pair :
    ReadsAs ((empty 8192 (by decide)).writeRangeMut 4095 [1, 2])
      (lastWritten [(4095, [1, 2])]) :=
  (refines_flat (by decide) (.cons (show WriteOp.apply _ (.writeRange 4095 [1, 2]) = _ from
    writeRange_of_le (by decide)) (.nil _))).2.1

/-- A range within the bounds can be longer than any vector. -/
theorem not_rangeLaw_maximal : ¬ RangeLaw (empty (2 ^ 64 - 1) (by decide)) fun _ ↦ True := by
  intro h
  obtain ⟨bytes, hbytes⟩ := (h.readRange 0 (2 ^ 63)).2 ⟨by decide, trivial⟩
  rw [readRange_of_lt (by decide) (by decide)] at hbytes
  cases hbytes

end PagedMemory

end Lionagi.LionCore
