import Rar2fs.Libc
import Rar2fs.Recursion.Context
import Rar2fs.Recursion.Stack
import Rar2fs.Recursion.UnpackSize
import Rar2fs.Recursion.Utf8
import Rar2fs.Recursion.Sanitize
import Rar2fs.Recursion.ExtractBuffer
import Rar2fs.Recursion.Fingerprint
import Rar2fs.DirList.Entry
import Rar2fs.DirList.Sort
import Rar2fs.DirList.Close
import Rar2fs.DirList.Add
import Rar2fs.DirList.Heap
import Rar2fs.DirList.HeapAdd
import Rar2fs.DirList.HeapClose
import Rar2fs.DirList.Lifecycle
import Rar2fs.DirList.Lists
import Rar2fs.Config.RarConfig
import Rar2fs.Config.Alias
