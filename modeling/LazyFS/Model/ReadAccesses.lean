import LazyFS.Model.FileOps

/-!
The memory that `lfs_read` touches (`lazyfs.cpp`).

* `ReadAccess`: bytes of the caller's buffer that are stored to, and bytes of the block buffer that
  are read.
* `ReadAccess.Inside`: the access stays inside its buffer.
* `FS.readAccesses`: those of a whole read, taken from the same loop as `FS.lfsRead`.
-/

namespace LazyFS

/-- `len` bytes of the caller's buffer that `pread`, `memcpy` or `memset` store to, or `len` bytes
of the block buffer that `memcpy` reads. -/
inductive ReadAccess where
  | store (start len : ℤ)
  | load (start len : ℤ)
  deriving DecidableEq

/-- The length is not negative, and every index is one of the buffer: of `size` bytes for the
caller's, of `B` bytes for the block buffer. -/
def ReadAccess.Inside (B size : ℕ) : ReadAccess → Prop
  | store start len => 0 ≤ len ∧ ∀ j, start ≤ j → j < start + len → 0 ≤ j ∧ j < size
  | load start len => 0 ≤ len ∧ ∀ j, start ≤ j → j < start + len → 0 ≤ j ∧ j < B

namespace FS

variable (cfg : Config)

/-- The `pread` of a pending chunk. -/
def chunkAccesses (s : ReadState) : List ReadAccess :=
  if 0 < s.lastPreadChunkSize then [.store s.bufIterator s.lastPreadChunkSize] else []

/-- The copy of a cached block, and the zeros after a block that ends early. -/
def copyAccesses (r : ReadCtx) (cur : ℕ) (blkReadableFrom blkReadableTo : ℤ) (s : ReadState) :
    List ReadAccess :=
  match s.fs.cache.getDataBlocks cfg r.inode (Map.single (toInt cur) cfg.uninit) with
  | none => []
  | some (_, found, buffers) =>
      match found.lookup (toInt cur), buffers.lookup (toInt cur) with
      | some (true, readableOffsets), some _ =>
          let readTo := min readableOffsets.2 blkReadableTo
          let len := readTo - blkReadableFrom + 1
          [.load blkReadableFrom len, .store s.bufIterator len] ++
            if readTo < cfg.ioBlockSize - 1 ∧ cur < blkHigh cfg r.size r.offset then
              [.store (s.bufIterator + len + readTo) (cfg.ioBlockSize - readTo)]
            else []
      | _, _ => []

/-- One turn of the block loop. -/
def blockAccesses (r : ReadCtx) (cur : ℕ) (s : ReadState) : List ReadAccess :=
  if r.metaSize < cur * cfg.ioBlockSize then []
  else if s.fs.cache.isBlockCached cfg r.inode (toInt cur) then
    let nextBlock : ℤ := (cur + 1) * cfg.ioBlockSize
    let s' :=
      if 0 < s.lastPreadChunkSize then
        { preadChunk r (r.io.pread cur) s with
            lastPreadChunkSize := 0
            lastPreadChunkOffset := nextBlock }
      else if cur < blkHigh cfg r.size r.offset then { s with lastPreadChunkOffset := nextBlock }
      else s
    chunkAccesses s ++ if s'.bytesLeft ≤ 0 then [] else
      copyAccesses cfg r cur (blkReadableFrom cfg r.offset cur)
        (blkReadableTo cfg r.size r.offset cur s.dataAllocated) s'
  else []

/-- The block loop, and the `pread` after it. -/
def loopAccesses (r : ReadCtx) : List ℕ → ReadState → List ReadAccess
  | [], s => chunkAccesses s
  | cur :: rest, s => blockAccesses cfg r cur s ++
      match readBlock cfg r cur s with
      | none => []
      | some (s', true) => loopAccesses r rest s'
      | some (s', false) => chunkAccesses s'

/-- **The accesses of `lfs_read`.** -/
def readAccesses (fs : FS) (path : Path) (buf : Mem) (size offset : ℕ) (fi : Option FileInfo)
    (io : ReadIo) : List ReadAccess :=
  match (fi.map FileInfo.fh).or (fs.disk.openRead path) with
  | none => []
  | some fd =>
      match (fs.lfsGetattr cfg path).bind fun r =>
        (r.1.readMeta cfg path (r.1.cache.getOriginalInode path) io.now).map fun m =>
          (m, r.1.cache.getOriginalInode path) with
      | none => []
      | some ((fs, metaSize), inode) =>
          if (metaSize : ℤ) - 1 < offset then []
          else loopAccesses cfg ⟨inode, fd, metaSize, size, offset, io⟩ (blkRange cfg size offset)
            ⟨fs, buf, 0, size, 0, 0, offset⟩

end FS

end LazyFS
