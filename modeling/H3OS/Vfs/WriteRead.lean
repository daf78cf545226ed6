import H3OS.Vfs.Ownership
/-!
# Write, then read

A write fills its new block before it gives the old one back, so its buffer
may lie in the old one. What is read afterwards is what the buffer held at
the call.
-/
open SysLib

namespace H3OS.Vfs.Raw

/-- A read to `out`, and of the number of bytes to `len`, gives the caller the first bytes of `w` and nothing else. -/
structure ReadsBack (p : St) (n : NodePtr) (w : List UInt8) (out max len : Nat) : Prop where
  result : (vfs_read p (some n) out max len).1 = (min w.length max : Nat)
  stored : load (vfs_read p (some n) out max len).2.mem len 8 = min w.length max
  copied : bytesAt (vfs_read p (some n) out max len).2.mem out (min w.length max) = w.take (min w.length max)
  kept : ∀ x, ¬ (Block.mk out (min w.length max)).Has x → ¬ (Block.mk len 8).Has x →
    (vfs_read p (some n) out max len).2.mem x = p.mem x

/-- Of the blocks in use `rest` is left: all of them, or all but the one at `old`. -/
def GivenBack (live rest : List Block) (old : Nat) : Prop :=
  if old = 0 then rest = live else ∃ c, c.start = old ∧ live.Perm (c :: rest)

/-- The node has taken the bytes `w`. -/
structure Took (p p' : St) (n : NodePtr) (w : List UInt8) : Prop where
  /-- The caller's buffer lies outside the node's data, and its counter outside the buffer. -/
  reads : ∀ out max len, len ≠ 0 → (Block.mk out (min w.length max)).Apart ⟨(p'.nodes n).data, w.length⟩ →
    (Block.mk len 8).Apart ⟨out, min w.length max⟩ → ReadsBack p' n w out max len
  others : ∀ m, m ≠ n → (p'.nodes m).size = (p.nodes m).size ∧ p'.bytes m = p.bytes m
  heap : ∃ b rest, p'.live = b :: rest ∧ b.start = (p'.nodes n).data ∧ GivenBack p.live rest (p.nodes n).data ∧
    ∀ c ∈ rest, SameOn c p.mem p'.mem

section
variable {p : St} {n : NodePtr} {buf size : Nat} {h : HeapCall} {b : Block}

theorem i32_of_lt {k : Nat} (hk : k < 2 ^ 31) : i32 k = k := by
  unfold i32
  omega

theorem Inv.givenBack (hi : Inv p) (n : NodePtr) :
    GivenBack p.live (release (p.nodes n).data p.live) (p.nodes n).data := by
  unfold GivenBack
  split_ifs with hd
  · rw [hd]
    exact hi.inUse.release_null
  · rcases release_cases (p.nodes n).data p.live with ⟨-, hnone⟩ | hsome
    · obtain ⟨c, hc, hs, -⟩ := hi.owns n hd
      exact absurd hs (hnone c hc)
    · exact hsome

theorem load_readMem (p : St) (n : NodePtr) {out k len : Nat} (hlen : len ≠ 0) (hk : k < 2 ^ 31) :
    load (readMem p n out k len) len 8 = k := by
  unfold readMem
  dsimp only
  rw [if_pos hlen]
  exact load_store_of_lt (hk.trans (by norm_num))

theorem bytesAt_readMem (hd : (p.nodes n).data ≠ 0) {out k len : Nat} (hlen : len ≠ 0)
    (hout : (Block.mk out k).Apart ⟨(p.nodes n).data, k⟩) (hapart : (Block.mk len 8).Apart ⟨out, k⟩) :
    bytesAt (readMem p n out k len) out k = bytesAt p.mem (p.nodes n).data k := by
  refine bytesAt_congr fun i hlt => ?_
  have hin : (Block.mk out k).Has (out + i) := ⟨Nat.le_add_right _ _, Nat.add_lt_add_left hlt _⟩
  have hnot : ¬ (Block.mk len 8).Has (out + i) := fun hl => hapart _ hl hin
  rw [Block.has_mk] at hnot
  unfold readMem
  rw [if_pos hlen, store_out (by omega), if_pos ⟨by omega, hd⟩]
  exact copy_in hout hlt

/-- A read gives what memory holds at the node's data. -/
theorem reads_back (hf : (p.nodes n).type = .VFS_FILE) (hsize : (p.nodes n).size < 2 ^ 31)
    (hd : (p.nodes n).data ≠ 0) {out max len : Nat} (hlen : len ≠ 0)
    (hout : (Block.mk out (min (p.nodes n).size max)).Apart ⟨(p.nodes n).data, (p.nodes n).size⟩)
    (hapart : (Block.mk len 8).Apart ⟨out, min (p.nodes n).size max⟩) : ReadsBack p n (p.bytes n) out max len := by
  have hlength : (p.bytes n).length = (p.nodes n).size := bytesAt_length
  have hk : min (p.nodes n).size max ≤ (p.nodes n).size := min_le_left _ _
  have hlt := lt_of_le_of_lt hk hsize
  refine ⟨?_, ?_, ?_, fun x hx hl => ?_⟩
  · rw [hlength, vfs_read_eq hf]
    exact i32_of_lt hlt
  · rw [hlength, vfs_read_eq hf]
    exact load_readMem p n hlen hlt
  · rw [hlength, vfs_read_eq hf, St.bytes, bytesAt_take, min_eq_left hk]
    refine bytesAt_readMem hd hlen (fun x hx hdata => hout x hx ⟨hdata.1, ?_⟩) hapart
    exact lt_of_lt_of_le hdata.2 (Nat.add_le_add_left hk _)
  · rw [hlength] at hx
    rw [vfs_read_eq hf]
    exact readMem_out p n hx hl

theorem took_written (hi : Inv p) (hs : h.Sound p.live ⟨buf, size⟩ (add64 size 1) (p.nodes n).data)
    (hf : (p.nodes n).type = .VFS_FILE) (hfind : h.find (add64 size 1) = some b) (hsize : size < 2 ^ 31) :
    Took p (written p n b buf size h) n (bytesAt p.mem buf size) := by
  have hroom : size + 1 < 2 ^ 64 := by omega
  have hr := hi.replaced_written hs hfind hroom
  have hbytes : (written p n b buf size h).bytes n = bytesAt p.mem buf size := by
    unfold St.bytes
    rw [hr.same]
    exact bytesAt_congr fun i hlt => hi.written_bytes hs hfind hroom hlt
  refine ⟨fun out max len hlen hout hapart => ?_, fun m hm => ⟨?_, hr.bytes hi hm⟩, ?_⟩
  · rw [← hbytes] at hout hapart ⊢
    have hlength : ((written p n b buf size h).bytes n).length = ((written p n b buf size h).nodes n).size := bytesAt_length
    rw [hlength] at hout hapart
    refine reads_back ?_ ?_ ?_ hlen hout hapart
    · rw [hr.same]
      exact hf
    · rw [hr.same]
      exact hsize
    · rw [hr.same]
      exact (hs.real b hfind).1.start.ne'
  · rw [hr.other hm]
  · refine ⟨b, release (p.nodes n).data p.live, hi.written_live hs hfind, ?_, hi.givenBack n, fun c hc => ?_⟩
    · rw [hr.same]
    · exact hi.written_kept hs hfind hroom hc

end

/-- Whatever was written is read back, nothing else of the file system changes, and the heap takes back the old block
alone; a write that fails changes nothing. -/
theorem write_then_read {p : St} (hp : Reach p) (n : NodePtr) (buf : Nat) {size : Nat} (hsize : size < 2 ^ 31)
    (h : HeapCall) (hs : h.Sound p.live ⟨buf, size⟩ (add64 size 1) (p.nodes n).data) :
    (0 ≤ (vfs_write p (some n) buf size h).1 → (vfs_write p (some n) buf size h).1 = size ∧
      Took p (vfs_write p (some n) buf size h).2 n (bytesAt p.mem buf size)) ∧
    ((vfs_write p (some n) buf size h).1 = -1 →
      (vfs_write p (some n) buf size h).2 = { p with mem := (vfs_write p (some n) buf size h).2.mem } ∧
      ∀ b ∈ p.live, SameOn b p.mem (vfs_write p (some n) buf size h).2.mem) := by
  have hi := hp.inv
  by_cases hf : (p.nodes n).type = .VFS_FILE
  · cases hfind : h.find (add64 size 1) with
    | none =>
      rw [vfs_write_no_memory hf hfind]
      refine ⟨fun hpos => absurd hpos (show ¬ (0 : Int) ≤ -1 by decide), fun _ => ⟨rfl, fun b hb => ?_⟩⟩
      exact hs.grow b (List.mem_cons_of_mem _ hb) p.mem
    | some b =>
      rw [vfs_write_found hi hs hf hfind]
      dsimp only
      rw [i32_of_lt hsize]
      exact ⟨fun _ => ⟨rfl, took_written hi hs hf hfind hsize⟩, fun hneg => absurd hneg (by omega)⟩
  · rw [vfs_write_not_file hf]
    exact ⟨fun hpos => absurd hpos (show ¬ (0 : Int) ≤ -1 by decide), fun _ => ⟨rfl, fun _ _ _ _ => rfl⟩⟩

/-- The heap of a call that gets the block at 0x3000, and overwrites the one it takes back. -/
def wipingHeap : HeapCall := ⟨fun req => some ⟨0x3000, req⟩, id, fun m => fill m 0x1000 4 0⟩

/-- A file of three bytes, its block at 0x1000. -/
def oneFile : St :=
  exec (exec (init_root (fun _ => 7) []) (.create (str "/a") 0o644))
    (.write (some ⟨1, by decide⟩) 0x2000 3 ⟨fun req => some ⟨0x1000, req⟩, id, id⟩)

theorem reach_oneFile : Reach oneFile := by
  refine .step _ (.step _ (.init _ [] .nil) ⟨.inl rfl, by decide +kernel⟩) ⟨by decide, fun n hn => ?_⟩
  cases hn
  have hlive : (exec (init_root (fun _ => 7) []) (.create (str "/a") 0o644)).live = [] := by decide +kernel
  rw [hlive]
  refine ⟨fun b hb => ?_, fun b hb => ⟨?_, nofun⟩, fun b _ m x _ => rfl, fun b _ c _ m x _ => rfl⟩
  · cases hb
    exact ⟨⟨by decide, by decide, by decide⟩, by decide⟩
  · cases hb
    exact Block.apart_of_stop_le (by decide)

/-- Writing a file's own data back to it. -/
theorem write_then_read_own_data :
    (vfs_write oneFile (some ⟨1, by decide⟩) 0x1000 3 wipingHeap).1 = 3 ∧
    Took oneFile (vfs_write oneFile (some ⟨1, by decide⟩) 0x1000 3 wipingHeap).2 ⟨1, by decide⟩ [7, 7, 7] := by
  have hlive : oneFile.live = [⟨0x1000, 4⟩] := by decide +kernel
  have hdata : (oneFile.nodes ⟨1, by decide⟩).data = 0x1000 := by decide +kernel
  have hbytes : bytesAt oneFile.mem 0x1000 3 = [7, 7, 7] := by decide +kernel
  rw [← hbytes]
  refine (write_then_read reach_oneFile ⟨1, by decide⟩ 0x1000 (by decide) wipingHeap ?_).1 (by decide +kernel)
  rw [hlive, hdata]
  refine ⟨fun b hb => ?_, fun b hb => ⟨?_, fun c hc => ?_⟩, fun b _ m x _ => rfl, fun b hb c hc m x hx => ?_⟩
  · cases hb
    exact ⟨⟨by decide, by decide, by decide⟩, by decide⟩
  · cases hb
    exact (Block.apart_of_stop_le (by decide)).symm
  · cases hb
    rw [List.mem_singleton.1 hc]
    exact (Block.apart_of_stop_le (by decide)).symm
  · cases hb
    have hrest : release 0x1000 [⟨0x3000, add64 3 1⟩, ⟨0x1000, 4⟩] = [⟨0x3000, add64 3 1⟩] := by decide
    rw [hrest] at hc
    rw [List.mem_singleton.1 hc] at hx
    refine fill_out (.inr (le_trans (by decide) hx.1))

end H3OS.Vfs.Raw
