import LocalStorage.Database

namespace LocalStorage

/-! # Statistics -/

/-- A mean as the ratios that are added and the number they are divided by; the quotient is a
float. -/
structure Mean where
  ratios : List Ratio
  divisor : Nat
deriving DecidableEq, Repr

structure StorageStats where
  totalFiles : Int
  totalSize : Int
  compressedFiles : Int
  encryptedFiles : Int
  compressionRatio : Option Mean
  lastUpdated : Time
deriving DecidableEq, Repr

namespace Database

/-- `to_string().parse::<i64>().unwrap_or(0)` of a sum. -/
def parsedSum (n : Int) : Int := if -2 ^ 63 ≤ n ∧ n < 2 ^ 63 then n else 0

def getBucketStats (db : Database) (bucket : String) : Int × Int :=
  let rows := db.files.rows.filter (·.bucket = bucket)
  (rows.length, parsedSum (rows.map (·.fileSize)).sum)

/-- The mean of no ratio is zero. -/
def getTotalStats (db : Database) (now : Time) : StorageStats :=
  let rows := db.files.rows
  let ratios := rows.filterMap (·.compressionRatio)
  { totalFiles := rows.length
    totalSize := parsedSum (rows.map (·.fileSize)).sum
    compressedFiles := (rows.filter (·.compressed)).length
    encryptedFiles := (rows.filter (·.encrypted)).length
    compressionRatio := some ⟨ratios, max 1 ratios.length⟩
    lastUpdated := now }

end Database

namespace StorageManager

/-- `get_bucket_stats`: the table gives the number of files and their size, a listing of a
thousand the rest. -/
def getBucketStats (db : Database) (rank : StoredFile → Nat) (now : Time) (bucket : String) :
    Except DbError StorageStats := do
  let (fileCount, totalSize) := db.getBucketStats bucket
  let files ← db.selectFiles rank bucket none 1000 0
  let compressedFiles := (files.filter (·.compressed)).length
  let encryptedFiles := (files.filter (·.encrypted)).length
  return {
    totalFiles := fileCount
    totalSize := totalSize
    compressedFiles := compressedFiles
    encryptedFiles := encryptedFiles
    compressionRatio :=
      if 0 < compressedFiles then some ⟨files.filterMap (·.compressionRatio), compressedFiles⟩
      else none
    lastUpdated := now }

end StorageManager

end LocalStorage
