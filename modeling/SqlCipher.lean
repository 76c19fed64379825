import SqlCipher.Backup.Run
import SqlCipher.Btree.CellInfo
import SqlCipher.Btree.Reinit
import SqlCipher.Changeset.Difference
import SqlCipher.Changeset.Recorded
import SqlCipher.Changeset.UpdateCache
import SqlCipher.Codec.Freshness
import SqlCipher.Codec.Geometry
import SqlCipher.Codec.IntegritySpec
import SqlCipher.Codec.KeyMutex
import SqlCipher.Codec.Keyspec
import SqlCipher.Codec.MigrateSpec
import SqlCipher.Codec.RoundTrip
import SqlCipher.Memory.PrivateHeapRun
import SqlCipher.Fkey.Checked
import SqlCipher.Pager.RekeyCrash
import SqlCipher.Process.CngSpec
import SqlCipher.Process.InitRun
import SqlCipher.Query.NonNullRow
import SqlCipher.Rsync.Safety
import SqlCipher.Unix.Exclusion
import SqlCipher.Vdbe.MemCompare
import SqlCipher.Vdbe.RowSet
import SqlCipher.Vdbe.Translate
import SqlCipher.Wal.Iterator
