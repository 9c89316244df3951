import LazyFS.Model.Cache

/-!
The file operations of the file system (`lazyfs.cpp`): `lfs_getattr`, `lfs_write`, `lfs_read`,
`lfs_truncate` and `lfs_fsync`.

* `FS`: the cache and the backing file system; `FileInfo`: the handle an operation is given,
  `none` for the null pointer.
* `WriteIo`, `ReadIo`, `Engine.SyncIo`: how the backing calls of one operation end.
* `writeBlock` and `readBlock` are the bodies of the two block loops.

No fault is registered, so that the fault hooks around an operation do nothing, and logging
is left out.  Block indices are `off_t` in the loops and `int` in the cache.
-/

namespace LazyFS

/-- The file system. -/
structure FS where
  cache : Cache
  disk : Disk

/-- `struct fuse_file_info`. -/
structure FileInfo where
  fh : Fd
  directIo : Bool := false

/-- The fields of `struct stat` of a regular file. -/
structure Stat where
  stIno : ℕ
  stSize : ℕ
  stBlocks : ℕ
  stNlink : ℕ
  stTimes : Times
  deriving DecidableEq

/-- How `lfs_getattr` ends: with a negative result, with the attributes of an object that is
not a regular file, or with those of a regular file. -/
inductive StatRes where
  | error
  | other
  | reg (st : Stat)
  deriving DecidableEq

namespace StatRes

/-- `st_size`; the operations below are called on regular files. -/
def stSize : StatRes → ℕ
  | .reg st => st.stSize
  | _ => 0

end StatRes

/-- `lstat` on a regular file. -/
def Disk.stat (d : Disk) (i : ℕ) : Stat :=
  ⟨i, (d.bytes i).length, d.sectors (d.bytes i), d.nlink i, d.times i⟩

/-- The time of a call and the ends of the backing calls of one `lfs_write`; the calls of the
block loop are told apart by their block. -/
structure WriteIo where
  now : Timespec := default
  openRdonly : Bool := true
  pread : ℕ → Fate := fun _ => .full
  pwrite : ℕ → Fate := fun _ => .full
  direct : Fate := .full

/-- The same for one `lfs_read`; the last `pread` comes after the last block. -/
structure ReadIo where
  now : Timespec := default
  pread : ℕ → Fate := fun _ => .full

namespace FS

variable (cfg : Config)

def setCache (fs : FS) (c : Cache) : FS := { fs with cache := c }

/-- Some of the metadata of an item updated, when the item is there to be locked. -/
def updateMeta (fs : FS) (inode : String) (newMeta : Metadata) (values : List MetaField) : FS :=
  fs.setCache (fs.cache.updateContentMetadata inode newMeta values)

/-- `put_data_blocks (inode, {}, OP_PASSTHROUGH)`. -/
def putNothing (fs : FS) (inode : String) : Option FS := do
  let (c, d, _) ← fs.cache.putDataBlocks cfg fs.disk inode ∅ .opPassthrough
  some ⟨c, d⟩

/-- `put_data_blocks` of one block, with `true` when the block was stored. -/
def putBlock (fs : FS) (inode : String) (blk : ℤ) (b : BlockPut) : Option (FS × Bool) := do
  let (c, d, putRes) ← fs.cache.putDataBlocks cfg fs.disk inode (Map.single blk b) .opWrite
  some (⟨c, d⟩, putRes.lookup blk = some true)

/-! ### `lfs_getattr` -/

/-- The attributes of a cached file, which override the backing ones. -/
def cachedStat (st : Stat) (m : Metadata) : Stat :=
  let blocksIoblksize := if 0 < m.size then (m.size - 1) / cfg.ioBlockSize + 1 else 0
  { st with
      stSize := m.size
      stBlocks := blocksIoblksize * cfg.ioBlockSize / cfg.diskSectorSize
      stTimes := ⟨m.atim, m.mtim, m.ctim⟩
      stNlink := m.nlinks }

/-- The metadata given to a new item. -/
def statMeta (st : Stat) : Metadata :=
  ⟨st.stNlink, st.stSize, st.stTimes.atim, st.stTimes.mtim, st.stTimes.ctim⟩

/-- `lfs_getattr`. -/
def lfsGetattr (fs : FS) (path : Path) : Option (FS × StatRes) :=
  match fs.disk.entries.lookup path with
  | none => some (fs, .error)
  | some (.symlink _) => some (fs, .other)
  | some .dir => some (fs, .other)
  | some (.file stIno) => do
      let stbuf := fs.disk.stat stIno
      let mapped := fs.cache.getOriginalInode path
      let inode := if mapped = "" then inodeStr stIno else mapped
      let fs :=
        if mapped = "" then fs.setCache (fs.cache.insertInodeMapping path inode false) else fs
      match fs.cache.getContentMetadata inode with
      | none => do
          let fs ← fs.putNothing cfg inode
          some (fs.updateMeta inode (statMeta stbuf) [.size, .atime, .ctime, .mtime, .nlinks],
            .reg stbuf)
      | some m => some (fs, .reg (cachedStat cfg stbuf m))

/-! ### The blocks of a request -/

/-- `offset + size - 1`, which is unsigned. -/
def lastByte (size offset : ℕ) : ℕ := (offset + size + (2 ^ 64 - 1)) % 2 ^ 64

def blkLow (offset : ℕ) : ℕ := offset / cfg.ioBlockSize

def blkHigh (size offset : ℕ) : ℕ := lastByte size offset / cfg.ioBlockSize

/-- The values of `CURR_BLK_IDX` in the block loops. -/
def blkRange (size offset : ℕ) : List ℕ :=
  List.range' (blkLow cfg offset) (blkHigh cfg size offset + 1 - blkLow cfg offset)

def blkReadableFrom (offset cur : ℕ) : ℤ :=
  if cur = blkLow cfg offset then offset % cfg.ioBlockSize else 0

def blkReadableTo (size offset cur : ℕ) (dataAllocated : ℤ) : ℤ :=
  if cur = blkHigh cfg size offset then lastByte size offset % cfg.ioBlockSize
  else if cur = blkLow cfg offset ∧ lastByte size offset < cfg.ioBlockSize then
    lastByte size offset
  else if cur < blkHigh cfg size offset then cfg.ioBlockSize - 1
  else size - dataAllocated - 1

/-! ### `lfs_write` -/

/-- What does not change in the block loop of one `lfs_write`. -/
structure WriteCtx where
  inode : String
  fd : Fd
  fdCaching : Option Fd
  cacheFull : Bool
  fileSizeBefore : ℕ
  buf : Mem
  size : ℕ
  offset : ℕ
  io : WriteIo

/-- A block written to the backing file when it was not stored: the result is `false` on a
short or failed `pwrite`. -/
def writeThrough (fs : FS) (w : WriteCtx) (cur : ℕ) (b : BlockPut) : FS × Bool :=
  let pw := fs.disk.pwrite (some w.fd) (w.io.pwrite cur) (b.data.read 0 b.len)
    (cur * cfg.ioBlockSize + b.offStart)
  ({ fs with disk := pw.2 }, pw.1 = b.len)

/-- The data of an uncached block: the caller's bytes alone, or merged into what `pread` found.
Of the uninitialised block buffer only bytes that were set are used. -/
def cacheBuf (w : WriteCtx) (needsPread : Bool) (pread : ℤ × List UInt8) (dataBufferIterator : ℤ)
    (readableFrom readableTo : ℤ) : BlockPut :=
  if needsPread = false ∨ pread.1 = 0 then
    ⟨w.buf.shift dataBufferIterator, (readableTo - readableFrom + 1).toNat,
      readableFrom, readableTo⟩
  else
    let blockCachingBuffer := memcpy cfg.uninit 0 (.ofList pread.2) 0 pread.2.length
    let blockCachingBuffer := memcpy blockCachingBuffer readableFrom w.buf dataBufferIterator
      (readableTo - readableFrom + 1)
    let blockCachingBuffer :=
      if 0 < readableFrom - pread.1 then
        memset blockCachingBuffer pread.1 0 (readableFrom - pread.1)
      else blockCachingBuffer
    let cacheWrSz := max pread.1 (readableTo + 1)
    ⟨blockCachingBuffer, cacheWrSz.toNat, 0, cacheWrSz - 1⟩

/-- A block put in the cache, or written through when it was not stored. -/
def putOrWrite (fs : FS) (w : WriteCtx) (cur : ℕ) (b : BlockPut) (cacheFull : Bool) :
    Option (FS × Bool) := do
  let (fs, stored) ←
    if cacheFull then some (fs, false) else fs.putBlock cfg w.inode (toInt cur) b
  if stored then some (fs, true) else some (fs.writeThrough cfg w cur b)

/-- One turn of the block loop of `lfs_write`, with `data_allocated`, which is also the
iterator of the caller's buffer, and `false` on a `break`. -/
def writeBlock (w : WriteCtx) (cur : ℕ) (fs : FS) (dataAllocated : ℤ) : Option (FS × ℤ × Bool) := do
  let blkReadableFrom := blkReadableFrom cfg w.offset cur
  let blkReadableTo := blkReadableTo cfg w.size w.offset cur dataAllocated
  let dataAllocated' := dataAllocated + (blkReadableTo - blkReadableFrom + 1)
  if fs.cache.isBlockCached cfg w.inode (toInt cur) then
    let b : BlockPut := ⟨w.buf.shift dataAllocated, (blkReadableTo - blkReadableFrom + 1).toNat,
      blkReadableFrom, blkReadableTo⟩
    let (fs, written) ← fs.putOrWrite cfg w cur b false
    some (fs, dataAllocated', written)
  else if w.fdCaching.isSome then
    let needsPread := decide (cur * cfg.ioBlockSize < w.fileSizeBefore) && !w.cacheFull
    let pread :=
      if needsPread then
        fs.disk.pread w.fdCaching (w.io.pread cur) cfg.ioBlockSize (cur * cfg.ioBlockSize : ℕ)
      else (0, [])
    if pread.1 < 0 then some (fs, dataAllocated, false)
    else
      let b := cacheBuf cfg w needsPread pread dataAllocated blkReadableFrom blkReadableTo
      let (fs, written) ← fs.putOrWrite cfg w cur b w.cacheFull
      some (fs, dataAllocated', written)
  else some (fs, dataAllocated, false)

/-- The block loop of `lfs_write`. -/
def writeLoop (w : WriteCtx) : List ℕ → FS → ℤ → Option FS
  | [], fs, _ => some fs
  | cur :: rest, fs, dataAllocated => do
      let (fs, dataAllocated, continues) ← writeBlock cfg w cur fs dataAllocated
      if continues then writeLoop w rest fs dataAllocated else some fs

/-- The metadata after the block loop. -/
def writeMeta (w : WriteCtx) (fs : FS) : FS :=
  let wasWrittenUntilOffset := w.offset + w.size
  let newMeta : Metadata :=
    { Metadata.new with
        size := max wasWrittenUntilOffset w.fileSizeBefore
        mtim := w.io.now
        ctim := w.io.now }
  fs.updateMeta w.inode newMeta
    (if w.fileSizeBefore < newMeta.size then [.size, .mtime, .ctime] else [.size, .mtime])

/-- `get_cache_usage () == 100` with eviction off. -/
def cacheFull (fs : FS) : Bool :=
  decide (fs.cache.getCacheUsage cfg = 100) && !cfg.applyLruEviction

/-- `lfs_write` on an open descriptor; `fill` is the call for the hole before the offset.  The
result is the size whatever happened to the blocks. -/
def writeOn (fs : FS) (fill : ℕ → FS → Option FS) (path : Path) (buf : Mem) (size offset : ℕ)
    (fd : Fd) (directIo : Bool) (io : WriteIo) : Option (FS × ℤ) := do
  let (fs, stats) ← fs.lfsGetattr cfg path
  let inode := fs.cache.getOriginalInode path
  let fs ←
    if directIo then
      some { fs with disk := (fs.disk.pwrite (some fd) io.direct (buf.read 0 size) offset).2 }
    else
      let fileSizeBefore :=
        match fs.cache.getContentMetadata inode with
        | none => stats.stSize
        | some m => m.size
      let fs ← fill fileSizeBefore fs
      let w : WriteCtx :=
        { inode := inode
          fd := fd
          fdCaching := if io.openRdonly then fs.disk.openRead path else none
          cacheFull := fs.cacheFull cfg
          fileSizeBefore := fileSizeBefore
          buf := buf
          size := size
          offset := offset
          io := io }
      let fs ← writeLoop cfg w (blkRange cfg size offset) fs 0
      some (fs.writeMeta w)
  let res := toInt size
  some (fs, if res = -1 then -cfg.errno else res)

/-- `lfs_write` with a null handle, which opens the file itself and never fills a hole. -/
def lfsWriteNull (fs : FS) (path : Path) (buf : Mem) (size offset : ℕ) (io : WriteIo) :
    Option (FS × ℤ) :=
  match fs.disk.openWrite path with
  | none => some (fs, -cfg.errno)
  | some fd => fs.writeOn cfg (fun _ fs => some fs) path buf size offset fd false io

/-- The hole between the end of the file and the offset, filled with zeros. -/
def fillHole (path : Path) (offset : ℕ) (io : WriteIo) (fileSizeBefore : ℕ) (fs : FS) :
    Option FS :=
  if fileSizeBefore < offset then
    (fs.lfsWriteNull cfg path (fun _ => 0) (offset - fileSizeBefore) fileSizeBefore io).map
      Prod.fst
  else some fs

/-- `lfs_write`; `fillIo` is for the call that fills the hole. -/
def lfsWrite (fs : FS) (path : Path) (buf : Mem) (size offset : ℕ) (fi : Option FileInfo)
    (io fillIo : WriteIo) : Option (FS × ℤ) :=
  match fi with
  | none => fs.lfsWriteNull cfg path buf size offset io
  | some fi =>
      fs.writeOn cfg (fillHole cfg path offset fillIo) path buf size offset fi.fh fi.directIo io

/-! ### `lfs_read` -/

/-- What does not change in the block loop of one `lfs_read`. -/
structure ReadCtx where
  inode : String
  fd : Fd
  metaSize : ℕ
  size : ℕ
  offset : ℕ
  io : ReadIo

/-- The variables of the block loop of `lfs_read`. -/
structure ReadState where
  fs : FS
  buf : Mem
  bufIterator : ℤ
  bytesLeft : ℤ
  dataAllocated : ℤ
  lastPreadChunkSize : ℤ
  lastPreadChunkOffset : ℤ

/-- The `pread` of the pending chunk into the caller's buffer. -/
def preadChunk (r : ReadCtx) (fate : Fate) (s : ReadState) : ReadState :=
  let pread := s.fs.disk.pread (some r.fd) fate s.lastPreadChunkSize.toNat s.lastPreadChunkOffset
  { s with
      buf := memcpy s.buf s.bufIterator (.ofList pread.2) 0 pread.2.length
      bufIterator := s.bufIterator + pread.1
      bytesLeft := s.bytesLeft - pread.1 }

/-- A cached block copied to the caller; a negative length of the copy is out of bounds. -/
def copyCached (r : ReadCtx) (cur : ℕ) (blkReadableFrom blkReadableTo : ℤ) (s : ReadState) :
    Option ReadState := do
  let (c, found, buffers) ←
    s.fs.cache.getDataBlocks cfg r.inode (Map.single (toInt cur) cfg.uninit)
  let s := { s with fs := s.fs.setCache c }
  match found.lookup (toInt cur), buffers.lookup (toInt cur) with
  | some (true, readableOffsets), some readBuffer =>
      let readTo := min readableOffsets.2 blkReadableTo
      let len := readTo - blkReadableFrom + 1
      if len < 0 then none
      else
        let buf := memcpy s.buf s.bufIterator readBuffer blkReadableFrom len
        let buf :=
          if readTo < cfg.ioBlockSize - 1 ∧ cur < blkHigh cfg r.size r.offset then
            memset buf (s.bufIterator + len + readTo) 0 (cfg.ioBlockSize - readTo)
          else buf
        some { s with
          buf := buf
          bufIterator := s.bufIterator + len
          bytesLeft := s.bytesLeft - len
          dataAllocated := s.dataAllocated + len }
  | _, _ => some s

/-- One turn of the block loop of `lfs_read`, `false` on a `break`. -/
def readBlock (r : ReadCtx) (cur : ℕ) (s : ReadState) : Option (ReadState × Bool) := do
  if r.metaSize < cur * cfg.ioBlockSize then some (s, false)
  else
    let blkReadableFrom := blkReadableFrom cfg r.offset cur
    let blkReadableTo := blkReadableTo cfg r.size r.offset cur s.dataAllocated
    if s.fs.cache.isBlockCached cfg r.inode (toInt cur) then
      let nextBlock : ℤ := (cur + 1) * cfg.ioBlockSize
      let s :=
        if 0 < s.lastPreadChunkSize then
          { preadChunk r (r.io.pread cur) s with
              lastPreadChunkSize := 0
              lastPreadChunkOffset := nextBlock }
        else if cur < blkHigh cfg r.size r.offset then { s with lastPreadChunkOffset := nextBlock }
        else s
      if s.bytesLeft ≤ 0 then some (s, false)
      else
        let s ← copyCached cfg r cur blkReadableFrom blkReadableTo s
        some (s, true)
    else
      let len := blkReadableTo - blkReadableFrom + 1
      let s := { s with dataAllocated := s.dataAllocated + len }
      if cur * cfg.ioBlockSize < r.metaSize then
        some ({ s with lastPreadChunkSize := s.lastPreadChunkSize + len }, true)
      else some (s, true)

/-- The block loop of `lfs_read`. -/
def readLoop (r : ReadCtx) : List ℕ → ReadState → Option ReadState
  | [], s => some s
  | cur :: rest, s => do
      let (s, continues) ← readBlock cfg r cur s
      if continues then readLoop r rest s else some s

/-- The size `lfs_read` works with, after the item is there. -/
def readMeta (fs : FS) (path : Path) (inode : String) (now : Timespec) : Option (FS × ℕ) := do
  match fs.cache.getContentMetadata inode with
  | some m => some (fs, m.size)
  | none =>
      let fs ← fs.putNothing cfg inode
      let size := ((fs.disk.ino path).map fun i => (fs.disk.bytes i).length).getD 0
      some (fs.updateMeta inode { Metadata.new with size := size, atim := now } [.size, .atime],
        size)

/-- `lfs_read` into `buf`, with the buffer after it. -/
def lfsRead (fs : FS) (path : Path) (buf : Mem) (size offset : ℕ) (fi : Option FileInfo)
    (io : ReadIo) : Option (FS × ℤ × Mem) :=
  match (fi.map FileInfo.fh).or (fs.disk.openRead path) with
  | none => some (fs, -cfg.errno, buf)
  | some fd => do
      let (fs, _) ← fs.lfsGetattr cfg path
      let inode := fs.cache.getOriginalInode path
      let (fs, metaSize) ← fs.readMeta cfg path inode io.now
      if (metaSize : ℤ) - 1 < offset then some (fs, 0, buf)
      else
        let r : ReadCtx := ⟨inode, fd, metaSize, size, offset, io⟩
        let s ← readLoop cfg r (blkRange cfg size offset) ⟨fs, buf, 0, size, 0, 0, offset⟩
        let s :=
          if 0 < s.lastPreadChunkSize then
            preadChunk r (io.pread (blkHigh cfg size offset + 1)) s
          else s
        let res := toInt s.bufIterator
        some (s.fs, if res = -1 then -cfg.errno else res, s.buf)

/-! ### `lfs_truncate` and `lfs_fsync` -/

/-- `ftruncate (fi->fh, n)`, or `truncate (path, n)` with a null handle. -/
def backingTruncate (fs : FS) (path : Path) (fi : Option FileInfo) (n : ℕ) : FS :=
  { fs with
      disk := (fs.disk.ftruncate ((fi.map FileInfo.fh).or (fs.disk.openWrite path)) true n).2 }

/-- The change of size of `lfs_truncate`, on an item of size `previousSize`.  The item to cut is
named by the path. -/
def changeSize (fs : FS) (path : Path) (truncateSize previousSize : ℕ) (fi : Option FileInfo)
    (io fillIo : WriteIo) : Option FS := do
  if previousSize < truncateSize then
    let addBytesTotal := truncateSize - previousSize
    let (fs, r) ← fs.lfsWrite cfg path (fun _ => 0) addBytesTotal previousSize fi io fillIo
    if r ≠ addBytesTotal then some (fs.backingTruncate path fi truncateSize) else some fs
  else if truncateSize < previousSize then
    let (c, _) ← fs.cache.truncateItem cfg (Path.str path) truncateSize
    some (fs.setCache c)
  else some fs

/-- The metadata after the change; the previous metadata is the item's own, read again. -/
def truncateMeta (fs : FS) (inode : String) (truncateSize : ℕ) (now : Timespec) : FS :=
  match fs.cache.getContentMetadata inode with
  | none => fs
  | some previousMetadata =>
      fs.updateMeta inode
        { Metadata.new with size := truncateSize, mtim := now, ctim := now }
        (if previousMetadata.size < truncateSize then [.size, .mtime, .ctime] else [.size, .mtime])

/-- The inode of the item to truncate, after `ftruncate (fd, 0)` and a second `lfs_getattr` when
no item is there, and `none` when there is none even then. -/
def truncateInode (fs : FS) (path : Path) (fi : Option FileInfo) : Option (FS × Option String) := do
  let inode := fs.cache.getOriginalInode path
  if fs.cache.hasContentCached inode then some (fs, some inode)
  else
    let (fs, stats) ← (fs.backingTruncate path fi 0).lfsGetattr cfg path
    match stats with
    | .reg st =>
        let newino := inodeStr st.stIno
        some (fs, if fs.cache.hasContentCached newino then some newino else none)
    | _ => some (fs, none)

/-- `lfs_truncate`.  The variable that is compared with `-1` at the end is not initialised. -/
def lfsTruncate (fs : FS) (path : Path) (truncateSize : ℕ) (fi : Option FileInfo)
    (io fillIo : WriteIo) : Option (FS × ℤ) := do
  let (fs, _) ← fs.lfsGetattr cfg path
  let (fs, inode) ← fs.truncateInode cfg path fi
  match inode with
  | none => some (fs, -1)
  | some inode =>
      let previousSize := ((fs.cache.getContentMetadata inode).map Metadata.size).getD 0
      let fs ← fs.changeSize cfg path truncateSize previousSize fi io fillIo
      some (fs.truncateMeta inode truncateSize io.now,
        if cfg.uninitInt = -1 then -cfg.errno else 0)

/-- `lfs_fsync`. -/
def lfsFsync (fs : FS) (path : Path) (isdatasync : Bool) (io : Engine.SyncIo) :
    Option (FS × ℤ) := do
  let (fs, _) ← fs.lfsGetattr cfg path
  let inode := fs.cache.getOriginalInode path
  if fs.cache.hasContentCached inode then
    let (c, d, res) ← fs.cache.syncOwner cfg fs.disk inode isdatasync path io
    some (⟨c, d⟩, res)
  else some (fs, if io.fsyncOk then 0 else -1)

end FS

end LazyFS
