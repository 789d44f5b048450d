import LocalStorage.Lib.Program
import LocalStorage.Lib.Runs
import LocalStorage.Lib.Interleave
import LocalStorage.Lib.Table
import LocalStorage.Lib.Paths
import LocalStorage.Lib.FileTree
import LocalStorage.Models
import LocalStorage.Compression
import LocalStorage.Crypto
import LocalStorage.Database
import LocalStorage.Cache
import LocalStorage.World
import LocalStorage.Storage
import LocalStorage.System
import LocalStorage.Steps
import LocalStorage.Sample
import LocalStorage.Proofs.Statements
import LocalStorage.Proofs.Upload
import LocalStorage.Proofs.Deletion
import LocalStorage.Proofs.Reading
import LocalStorage.Proofs.SharedBytes
import LocalStorage.Proofs.RoundTrip
import LocalStorage.Proofs.FailedUpload
import LocalStorage.Proofs.BucketRemoval
import LocalStorage.Proofs.CacheCoherence
import LocalStorage.Proofs.Containment
import LocalStorage.Proofs.ConcurrentUploads
import LocalStorage.Proofs.LateFill
import LocalStorage.Proofs.Effects
import LocalStorage.Proofs.Dialogues
import LocalStorage.Proofs.OneSource
import LocalStorage.Proofs.Vocabulary
import LocalStorage.Proofs.CacheSlots
import LocalStorage.Proofs.DeleteRace
import LocalStorage.Proofs.RemovalRace
import LocalStorage.Proofs.ExpiryRace
import LocalStorage.Proofs.Answers
import LocalStorage.Proofs.LapsedReads
import LocalStorage.Handlers
import LocalStorage.Proofs.RequestKeys
import LocalStorage.Proofs.RangeReads
import LocalStorage.Proofs.FlatKeys
import LocalStorage.Lib.Disk
import LocalStorage.FileWrites
import LocalStorage.Proofs.TempFiles
import LocalStorage.Proofs.SoloWrites
import LocalStorage.Proofs.Restart
import LocalStorage.Lib.Views
import LocalStorage.Triggers
import LocalStorage.Proofs.Statistics
import LocalStorage.Proofs.Ratios
import LocalStorage.Proofs.Orphans
import LocalStorage.Proofs.DeleteOverlap
import LocalStorage.EncryptionKeys
import LocalStorage.Proofs.KeyEvents
import LocalStorage.Proofs.SealedRows
import LocalStorage.S3
import LocalStorage.Proofs.ObjectSizes
import LocalStorage.Proofs.EntityTags
import LocalStorage.Proofs.RowIdentity
import LocalStorage.Proofs.InheritedKeys
import LocalStorage.Lib.ByteRanges
import LocalStorage.Proofs.RangeGrammar
import LocalStorage.Lib.Panics
import LocalStorage.Proofs.RangeBounds
import LocalStorage.Smooth
import LocalStorage.Proofs.Erasures
import LocalStorage.Lib.Delivery
import LocalStorage.Proofs.RangeAnswers
import LocalStorage.Proofs.UploadOptions
import LocalStorage.Uploads
import LocalStorage.Lib.Pool
import LocalStorage.Proofs.SizeLimits
import LocalStorage.Auth
import LocalStorage.Proofs.Signatures
import LocalStorage.Proofs.ClientSigning
import LocalStorage.Proofs.CredentialScope
import LocalStorage.Proofs.Copies
import LocalStorage.Proofs.Decompression
import LocalStorage.Lib.Paging
import LocalStorage.Proofs.Listings
import LocalStorage.Proofs.Prefixes
import LocalStorage.Proofs.BucketFigures
import LocalStorage.Lib.UrlDecoding
import LocalStorage.Proofs.UriEncoding
import LocalStorage.Proofs.CanonicalForms
import LocalStorage.Proofs.UploadNames
import LocalStorage.Lib.Relay
import LocalStorage.Preload
import LocalStorage.Proofs.Lifetimes
import LocalStorage.Proofs.Preloading
import LocalStorage.Lib.Cuts
import LocalStorage.Crashes
import LocalStorage.ObjectStore
import LocalStorage.Proofs.Crashes
import LocalStorage.Proofs.RowFates
import LocalStorage.Proofs.Refinement
import LocalStorage.Proofs.Durability
import LocalStorage.S3Deletes
import LocalStorage.Lib.Tallies
import LocalStorage.FolderTree
import LocalStorage.Proofs.FolderTrees
import LocalStorage.Proofs.BatchDeletion
import LocalStorage.Lib.Permits
import LocalStorage.Service
import LocalStorage.Proofs.RequestLimit
import LocalStorage.Proofs.ServerRuns
import LocalStorage.Proofs.RowRecords
import LocalStorage.Proofs.Integrity
import LocalStorage.Proofs.KeyHistory
import LocalStorage.Lib.Rely
import LocalStorage.Proofs.Isolation
import LocalStorage.Proofs.UndisturbedUploads
