import EncryptedSpaces.Retention.Adversary
import EncryptedSpaces.Retention.Exclusion
import EncryptedSpaces.Server.RetentionFrame
import EncryptedSpaces.Client.Isolation
import EncryptedSpaces.Client.CacheConcurrency
import EncryptedSpaces.Client.ListChain
import EncryptedSpaces.Ops.Guarantees
import EncryptedSpaces.Encoding.Canonical
import EncryptedSpaces.Client.SigningKeys
import EncryptedSpaces.Client.KeyRotation
import EncryptedSpaces.FastForward.ParentWindow
import EncryptedSpaces.Server.SigrefChain
import EncryptedSpaces.Ops.ListParents
import EncryptedSpaces.Client.QueryFields
import EncryptedSpaces.Client.TextArea
import EncryptedSpaces.Server.Files
import EncryptedSpaces.Tracer.Reads
import EncryptedSpaces.Tracer.Batches
